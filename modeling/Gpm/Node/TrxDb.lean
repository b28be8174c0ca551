import Gpm.StateDb.Record

namespace Gpm

/-- A `transaction_state`. -/
inductive Group
  | pending
  | head
  | applied
  deriving DecidableEq

namespace Group

def toNat : Group → ℕ
  | pending => 0
  | head => 1
  | applied => 2

theorem toNat_injective : Function.Injective toNat := by
  intro g g' h
  cases g <;> cases g' <;> simp_all [toNat]

end Group

structure TrxKey where
  group : Group
  hash : Hashcode
  deriving DecidableEq

namespace TrxKey

def cmp : TrxKey → TrxKey → Ordering :=
  compareLex (compareOn fun k => k.group.toNat) (compareOn fun k => k.hash)

instance : Std.TransCmp cmp := by unfold cmp; infer_instance

instance : Std.LawfulEqCmp cmp where
  eq_of_compare := by
    rintro ⟨g, h⟩ ⟨g', h'⟩ heq
    simp only [cmp, compareLex, compareOn, Ordering.then_eq_eq, Nat.compare_eq_eq] at heq
    rw [Group.toNat_injective heq.1, heq.2]

end TrxKey

abbrev TrxDb := Std.ExtTreeMap TrxKey SignedTransaction TrxKey.cmp

namespace TrxDb

def getTransactions (db : TrxDb) (trx : List Hashcode) (group : Group) : List SignedTransaction :=
  (trx.mapM fun h => db[TrxKey.mk group h]?).getD []

def moveEntry (db : TrxDb) (h : Hashcode) (t : SignedTransaction) (fromGroup toGroup : Group) :
    TrxDb :=
  (db.insert ⟨toGroup, h⟩ t).erase ⟨fromGroup, h⟩

/-- The first `move_transactions`: the least entry of the group is moved until none is left. -/
def moveGroup (db : TrxDb) (fromGroup toGroup : Group) : TrxDb :=
  (db.toList.filter fun e => e.1.group = fromGroup).foldl
    (fun db e => db.moveEntry e.1.hash e.2 fromGroup toGroup) db

def moveTransactions (db : TrxDb) (trx : List Hashcode) (fromGroup toGroup : Group) : TrxDb :=
  trx.foldl (fun db h =>
    match db[TrxKey.mk fromGroup h]? with
    | none => db
    | some t => db.moveEntry h t fromGroup toGroup) db

def knows (db : TrxDb) (h : Hashcode) : Bool :=
  [Group.pending, .head, .applied].any fun g => (db[TrxKey.mk g h]?).isSome

variable {db : TrxDb} {g : Group} {h : Hashcode} {t : SignedTransaction}

theorem knows_iff : db.knows h ↔ ∃ g : Group, (db[TrxKey.mk g h]?).isSome := by
  simp only [knows, List.any_cons, List.any_nil, Bool.or_false, Bool.or_eq_true]
  constructor
  · rintro (hg | hg | hg)
    · exact ⟨.pending, hg⟩
    · exact ⟨.head, hg⟩
    · exact ⟨.applied, hg⟩
  · rintro ⟨g, hg⟩
    cases g with
    | pending => exact Or.inl hg
    | head => exact Or.inr (Or.inl hg)
    | applied => exact Or.inr (Or.inr hg)

theorem getElem?_insert' (k k' : TrxKey) :
    (db.insert k t)[k']? = if k = k' then some t else db[k']? := by
  rw [Std.ExtTreeMap.getElem?_insert]
  simp only [Std.LawfulEqCmp.compare_eq_iff_eq]

theorem getElem?_moveEntry {fromGroup toGroup : Group} (k : TrxKey) :
    (db.moveEntry h t fromGroup toGroup)[k]? =
      if k = ⟨fromGroup, h⟩ then none else if k = ⟨toGroup, h⟩ then some t else db[k]? := by
  rw [moveEntry, Std.ExtTreeMap.getElem?_erase, getElem?_insert']
  simp only [Std.LawfulEqCmp.compare_eq_iff_eq]
  grind

variable (db) in
theorem getElem?_moveTransactions (l : List Hashcode) (fromGroup toGroup : Group) (k : TrxKey) :
    (db.moveTransactions l fromGroup toGroup)[k]? =
      if k.hash ∈ l ∧ k.group = fromGroup then none
      else if k.hash ∈ l ∧ k.group = toGroup then db[TrxKey.mk fromGroup k.hash]?.or db[k]?
      else db[k]? := by
  induction l generalizing db with
  | nil => simp [moveTransactions]
  | cons h l ih =>
    obtain ⟨g, h'⟩ := k
    simp only [moveTransactions, List.foldl_cons] at ih ⊢
    rw [ih]
    cases hm : db[TrxKey.mk fromGroup h]? with
    | none => grind
    | some t =>
      simp only [getElem?_moveEntry]
      grind

theorem origin_of_moveTransactions {l : List Hashcode} {fromGroup toGroup : Group}
    (hs : ((db.moveTransactions l fromGroup toGroup)[TrxKey.mk g h]?).isSome) :
    ∃ g' : Group, (db[TrxKey.mk g' h]?).isSome ∧
      g = if h ∈ l ∧ g' = fromGroup then toGroup else g' := by
  rw [getElem?_moveTransactions] at hs
  simp only at hs
  split at hs
  · cases hs
  · rename_i hfrom
    split at hs
    · rename_i hto
      rw [Option.isSome_or, Bool.or_eq_true] at hs
      cases hs with
      | inl hs => exact ⟨fromGroup, hs, by rw [if_pos ⟨hto.1, rfl⟩, hto.2]⟩
      | inr hs => exact ⟨g, hs, by rw [if_neg hfrom]⟩
    · exact ⟨g, hs, by rw [if_neg hfrom]⟩

theorem moveGroup_eq (fromGroup toGroup : Group) :
    db.moveGroup fromGroup toGroup =
      db.moveTransactions ((db.toList.filter fun e => e.1.group = fromGroup).map (·.1.hash))
        fromGroup toGroup := by
  have key : ∀ (l : List (TrxKey × SignedTransaction)) (db : TrxDb),
      l.Pairwise (fun a b => a.1 ≠ b.1) →
        (∀ e ∈ l, e.1.group = fromGroup ∧ db[e.1]? = some e.2) →
          l.foldl (fun db e => db.moveEntry e.1.hash e.2 fromGroup toGroup) db =
            db.moveTransactions (l.map (·.1.hash)) fromGroup toGroup := by
    intro l
    induction l with
    | nil =>
      intro db _ _
      rfl
    | cons e l ih =>
      intro db hl hdb
      obtain ⟨⟨g, h⟩, t⟩ := e
      obtain ⟨rfl, ht⟩ := hdb _ List.mem_cons_self
      rw [List.pairwise_cons] at hl
      simp only [moveTransactions, List.map_cons, List.foldl_cons, ht] at ih ⊢
      apply ih _ hl.2
      intro e he
      obtain ⟨hg, he'⟩ := hdb e (List.mem_cons_of_mem _ he)
      refine ⟨hg, ?_⟩
      rw [getElem?_moveEntry]
      grind
  apply key
  · apply List.Pairwise.filter
    exact Std.ExtTreeMap.distinct_keys_toList.imp fun h heq =>
      h (Std.LawfulEqCmp.compare_eq_iff_eq.mpr heq)
  · intro e he
    rw [List.mem_filter, Std.ExtTreeMap.mem_toList_iff_getElem?_eq_some] at he
    exact ⟨of_decide_eq_true he.2, he.1⟩

variable (db) in
theorem getElem?_moveGroup (fromGroup toGroup : Group) (k : TrxKey) :
    (db.moveGroup fromGroup toGroup)[k]? =
      if k.group = fromGroup then none
      else if k.group = toGroup then db[TrxKey.mk fromGroup k.hash]?.or db[k]?
      else db[k]? := by
  have hmem : ∀ h, h ∈ (db.toList.filter fun e => e.1.group = fromGroup).map (·.1.hash) ↔
      (db[TrxKey.mk fromGroup h]?).isSome := by
    intro h
    rw [List.mem_map]
    constructor
    · rintro ⟨⟨⟨g, h'⟩, t⟩, he, rfl⟩
      rw [List.mem_filter, Std.ExtTreeMap.mem_toList_iff_getElem?_eq_some] at he
      rw [← of_decide_eq_true he.2, he.1]
      rfl
    · intro hs
      obtain ⟨t, ht⟩ := Option.isSome_iff_exists.mp hs
      refine ⟨(⟨fromGroup, h⟩, t), ?_, rfl⟩
      rw [List.mem_filter, Std.ExtTreeMap.mem_toList_iff_getElem?_eq_some]
      exact ⟨ht, decide_eq_true rfl⟩
  obtain ⟨g, h⟩ := k
  rw [moveGroup_eq, getElem?_moveTransactions]
  simp only [hmem]
  cases hd : db[TrxKey.mk fromGroup h]? with
  | none => grind
  | some t => grind

def Lists (db : TrxDb) (g : Group) : List Hashcode → List SignedTransaction → Prop :=
  List.Forall₂ fun h t => db[TrxKey.mk g h]? = some t

theorem mapM_eq_some_iff {l : List Hashcode} {ts : List SignedTransaction} :
    (l.mapM fun h => db[TrxKey.mk g h]?) = some ts ↔ db.Lists g l ts := by
  induction l generalizing ts with
  | nil => simp [Lists, eq_comm]
  | cons h l ih =>
    simp only [List.mapM_cons, Option.bind_eq_bind, Option.bind_eq_some_iff, Option.pure_def,
      Option.some.injEq, ih, Lists, List.forall₂_cons_left_iff]
    constructor
    · rintro ⟨t, ht, ts', hts, rfl⟩
      exact ⟨t, ts', ht, hts, rfl⟩
    · rintro ⟨t, ts', ht, hts, rfl⟩
      exact ⟨t, ht, ts', hts, rfl⟩

theorem length_getTransactions_iff {l : List Hashcode} :
    (db.getTransactions l g).length = l.length ↔ db.Lists g l (db.getTransactions l g) := by
  constructor
  · intro hlen
    cases hm : l.mapM fun h => db[TrxKey.mk g h]? with
    | some ts =>
      rw [getTransactions, hm]
      exact mapM_eq_some_iff.mp hm
    | none =>
      rw [getTransactions, hm] at hlen
      rw [List.length_eq_zero_iff.mp hlen.symm, List.mapM_nil] at hm
      cases hm
  · exact fun h => (List.Forall₂.length_eq h).symm

theorem getTransactions_of_lists {l : List Hashcode} {ts : List SignedTransaction}
    (h : db.Lists g l ts) : db.getTransactions l g = ts := by
  rw [getTransactions, mapM_eq_some_iff.mpr h]
  rfl

theorem Lists.isSome {l : List Hashcode} {ts : List SignedTransaction} (hl : db.Lists g l ts)
    (hmem : h ∈ l) : (db[TrxKey.mk g h]?).isSome := by
  induction hl with
  | nil => cases hmem
  | cons ht _ ih =>
    cases hmem with
    | head => rw [ht]; rfl
    | tail _ hmem => exact ih hmem

theorem exists_lists {l : List Hashcode} (hl : ∀ h ∈ l, (db[TrxKey.mk g h]?).isSome) :
    ∃ ts, db.Lists g l ts := by
  induction l with
  | nil => exact ⟨[], .nil⟩
  | cons h l ih =>
    obtain ⟨t, ht⟩ := Option.isSome_iff_exists.mp (hl h List.mem_cons_self)
    obtain ⟨ts, hts⟩ := ih fun h' hh => hl h' (List.mem_cons_of_mem _ hh)
    exact ⟨t :: ts, .cons ht hts⟩

structure Pool (E : Externals) (db : TrxDb) : Prop where
  keyed : ∀ {g h t}, db[TrxKey.mk g h]? = some t → E.hashSignedTrx t = h
  exclusive : ∀ {g g' h}, (db[TrxKey.mk g h]?).isSome → (db[TrxKey.mk g' h]?).isSome → g = g'

namespace Pool

variable {E : Externals}

theorem empty : Pool E ∅ where
  keyed h := by simp at h
  exclusive h := by simp at h

theorem insert (hp : Pool E db) (hnew : ¬ db.knows (E.hashSignedTrx t)) :
    Pool E (db.insert ⟨g, E.hashSignedTrx t⟩ t) := by
  have hnone : ∀ g' : Group, db[TrxKey.mk g' (E.hashSignedTrx t)]? = none := by
    intro g'
    apply Option.not_isSome_iff_eq_none.mp
    exact fun hs => hnew (knows_iff.mpr ⟨g', hs⟩)
  constructor
  · intro g' h' t' hget
    rw [getElem?_insert'] at hget
    split at hget
    · rename_i hkey
      cases hkey
      rw [Option.some.inj hget]
    · exact hp.keyed hget
  · intro g₁ g₂ h' h₁ h₂
    rw [getElem?_insert'] at h₁ h₂
    by_cases hh : E.hashSignedTrx t = h'
    · subst hh
      simp only [hnone, TrxKey.mk.injEq, and_true] at h₁ h₂
      split at h₁
      · split at h₂
        · exact Eq.trans (Eq.symm ‹_›) ‹_›
        · cases h₂
      · cases h₁
    · simp only [TrxKey.mk.injEq, hh, and_false, if_false] at h₁ h₂
      exact hp.exclusive h₁ h₂

theorem moveTransactions (hp : Pool E db) (l : List Hashcode) (fromGroup toGroup : Group) :
    Pool E (db.moveTransactions l fromGroup toGroup) := by
  constructor
  · intro g h t hget
    rw [getElem?_moveTransactions] at hget
    split at hget
    · cases hget
    · split at hget
      · cases Option.or_eq_some_iff.mp hget with
        | inl hget => exact hp.keyed hget
        | inr hget => exact hp.keyed hget.2
      · exact hp.keyed hget
  · intro g₁ g₂ h h₁ h₂
    obtain ⟨g₁', hg₁, rfl⟩ := origin_of_moveTransactions h₁
    obtain ⟨g₂', hg₂, rfl⟩ := origin_of_moveTransactions h₂
    rw [hp.exclusive hg₁ hg₂]

theorem moveGroup (hp : Pool E db) (fromGroup toGroup : Group) :
    Pool E (db.moveGroup fromGroup toGroup) := by
  rw [moveGroup_eq]
  exact hp.moveTransactions _ _ _

end Pool

end TrxDb

end Gpm
