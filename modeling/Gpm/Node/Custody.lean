import Gpm.Node.PoolFrame

namespace Gpm

open Lib (Keeps)

variable {E : Externals}

namespace TrxDb

/-- The iterator `search` returns: the first entry that is not in front of a key. -/
def search (db : TrxDb) (k : TrxKey) : Option (TrxKey × SignedTransaction) :=
  db.toList.find? fun e => (TrxKey.cmp k e.1).isLE

/-- The `while` loop of the first `move_transactions`, which searches anew after each move;
`none` is a run that has not come to its end. -/
def moveGroupLoop (fromGroup toGroup : Group) : ℕ → TrxDb → Option TrxDb
  | 0, _ => none
  | fuel + 1, db =>
    match db.search ⟨fromGroup, 0⟩ with
    | none => some db
    | some e =>
      if e.1.group = fromGroup then
        moveGroupLoop fromGroup toGroup fuel (db.moveEntry e.1.hash e.2 fromGroup toGroup)
      else some db

section Loop

variable {db : TrxDb} {g fromGroup toGroup : Group} {h : Hashcode} {t : SignedTransaction}

theorem cmp_zero_isLE {k : TrxKey} :
    (TrxKey.cmp ⟨g, 0⟩ k).isLE ↔ g.toNat ≤ k.group.toNat := by
  rw [TrxKey.cmp, compareLex, compareOn, compareOn, Ordering.isLE_then_iff_and]
  simp only [Nat.isLE_compare, Nat.compare_eq_lt, Nat.zero_le, or_true, and_true]

theorem group_le_of_cmp {k k' : TrxKey} (hlt : TrxKey.cmp k k' = .lt) :
    k.group.toNat ≤ k'.group.toNat := by
  have hle := Ordering.isLE_left_of_isLE_then (congrArg Ordering.isLE hlt)
  exact Nat.isLE_compare.mp hle

theorem search_eq_some (hs : (db[TrxKey.mk g h]?).isSome) :
    ∃ e, db.search ⟨g, 0⟩ = some e ∧ e.1.group = g := by
  obtain ⟨t, ht⟩ := Option.isSome_iff_exists.mp hs
  have hmem : (TrxKey.mk g h, t) ∈ db.toList :=
    Std.ExtTreeMap.mem_toList_iff_getElem?_eq_some.mpr ht
  cases hfind : db.search ⟨g, 0⟩ with
  | none =>
    have hnot := List.find?_eq_none.mp hfind _ hmem
    exact absurd (cmp_zero_isLE.mpr (Nat.le_refl g.toNat)) hnot
  | some e =>
    refine ⟨e, rfl, ?_⟩
    obtain ⟨hle, front, back, hlist, hfront⟩ := List.find?_eq_some_iff_append.mp hfind
    have hsorted := Std.ExtTreeMap.ordered_keys_toList (t := db)
    rw [hlist, List.pairwise_append, List.pairwise_cons] at hsorted
    rw [hlist, List.mem_append, List.mem_cons] at hmem
    obtain hmem | rfl | hmem := hmem
    · have hnot := hfront _ hmem
      rw [Bool.not_eq_true'] at hnot
      exact absurd (cmp_zero_isLE.mpr (Nat.le_refl g.toNat))
        (by rw [hnot]; exact Bool.false_ne_true)
    · rfl
    · have hge := group_le_of_cmp (hsorted.2.1.1 _ hmem)
      exact Group.toNat_injective (Nat.le_antisymm hge (cmp_zero_isLE.mp hle))

theorem getElem?_of_search {k : TrxKey} {e : TrxKey × SignedTransaction}
    (hfind : db.search k = some e) : db[e.1]? = some e.2 :=
  Std.ExtTreeMap.mem_toList_iff_getElem?_eq_some.mp (List.mem_of_find?_eq_some hfind)

theorem moveGroup_of_none (hnone : ∀ h, db[TrxKey.mk fromGroup h]? = none) :
    db.moveGroup fromGroup toGroup = db := by
  apply Std.ExtTreeMap.ext_getElem?
  rintro ⟨g, h⟩
  rw [getElem?_moveGroup]
  grind

theorem moveGroup_moveEntry (ht : db[TrxKey.mk fromGroup h]? = some t) :
    (db.moveEntry h t fromGroup toGroup).moveGroup fromGroup toGroup =
      db.moveGroup fromGroup toGroup := by
  apply Std.ExtTreeMap.ext_getElem?
  rintro ⟨g, h'⟩
  simp only [getElem?_moveGroup, getElem?_moveEntry]
  grind

theorem moveGroupLoop_of_none (hnone : ∀ h, db[TrxKey.mk fromGroup h]? = none) (n : ℕ) :
    moveGroupLoop fromGroup toGroup (n + 1) db = some db := by
  unfold moveGroupLoop
  cases hfind : db.search ⟨fromGroup, 0⟩ with
  | none => rfl
  | some e =>
    simp only
    rw [if_neg]
    rintro rfl
    have hget := getElem?_of_search hfind
    rw [hnone e.1.hash] at hget
    cases hget

theorem moveGroupLoop_of_length {n : ℕ} {l : List Hashcode} (hlen : l.length ≤ n)
    (hl : ∀ h, (db[TrxKey.mk fromGroup h]?).isSome → h ∈ l) :
    moveGroupLoop fromGroup toGroup (n + 1) db = some (db.moveGroup fromGroup toGroup) := by
  induction n generalizing db l with
  | zero =>
    have hnil := List.length_eq_zero_iff.mp (Nat.le_zero.mp hlen)
    subst hnil
    have hnone : ∀ h, db[TrxKey.mk fromGroup h]? = none := fun h =>
      Option.not_isSome_iff_eq_none.mp fun hs => List.not_mem_nil (hl h hs)
    rw [moveGroupLoop_of_none hnone, moveGroup_of_none hnone]
  | succ n ih =>
    by_cases hs : ∃ h, (db[TrxKey.mk fromGroup h]?).isSome
    · obtain ⟨h, hs⟩ := hs
      obtain ⟨⟨⟨g, h'⟩, t⟩, hfind, hgroup⟩ := search_eq_some hs
      have ht : db[TrxKey.mk g h']? = some t := getElem?_of_search hfind
      simp only at hgroup
      subst hgroup
      have hmem : h' ∈ l := hl h' (by rw [ht]; rfl)
      have hshort : (l.filter (· ≠ h')).length ≤ n := by
        have hlt : (l.filter (· ≠ h')).length < l.length :=
          List.length_filter_lt_length_iff_exists.mpr ⟨h', hmem, by simp⟩
        omega
      have hleft : ∀ h₁, ((db.moveEntry h' t g toGroup)[TrxKey.mk g h₁]?).isSome →
          h₁ ∈ l.filter (· ≠ h') := by
        intro h₁ hs₁
        rw [getElem?_moveEntry] at hs₁
        rw [List.mem_filter]
        grind
      have hrest := ih hshort hleft
      unfold moveGroupLoop
      simp only [hfind, if_true]
      rw [hrest, moveGroup_moveEntry ht]
    · have hnone : ∀ h, db[TrxKey.mk fromGroup h]? = none := fun h =>
        Option.not_isSome_iff_eq_none.mp fun hsome => hs ⟨h, hsome⟩
      rw [moveGroupLoop_of_none hnone, moveGroup_of_none hnone]

theorem exists_moveGroupLoop (db : TrxDb) (fromGroup toGroup : Group) :
    ∃ fuel, moveGroupLoop fromGroup toGroup fuel db = some (db.moveGroup fromGroup toGroup) := by
  refine ⟨_, moveGroupLoop_of_length (l := db.toList.map (·.1.hash)) (Nat.le_refl _) ?_⟩
  intro h hs
  obtain ⟨t, ht⟩ := Option.isSome_iff_exists.mp hs
  exact List.mem_map.mpr ⟨_, Std.ExtTreeMap.mem_toList_iff_getElem?_eq_some.mpr ht, rfl⟩

end Loop

end TrxDb

namespace Node

def Conserves (E : Externals) (n n' : Node) : Prop :=
  n.mTrxDb.Pool E → n'.mTrxDb.Pool E ∧ ∀ h t, n'.mTrxDb.Holds h t ↔ n.mTrxDb.Holds h t

variable {n n' n'' : Node}

namespace Conserves

theorem of_eq (h : n'.mTrxDb = n.mTrxDb) : Conserves E n n' := by
  intro hp
  rw [h]
  exact ⟨hp, fun _ _ => Iff.rfl⟩

theorem refl (n : Node) : Conserves E n n := of_eq rfl

theorem trans (h : Conserves E n n') (h' : Conserves E n' n'') : Conserves E n n'' := by
  intro hp
  obtain ⟨hp', hholds⟩ := h hp
  obtain ⟨hp'', hholds'⟩ := h' hp'
  exact ⟨hp'', fun k t => (hholds' k t).trans (hholds k t)⟩

theorem moveTransactions {fromGroup toGroup : Group} (hne : fromGroup ≠ toGroup)
    (l : List Hashcode) (n : Node) : Conserves E n (n.moveTransactions l fromGroup toGroup) :=
  fun hp => ⟨hp.moveTransactions l _ _, fun _ _ => hp.holds_moveTransactions hne l⟩

theorem moveGroup {fromGroup toGroup : Group} (hne : fromGroup ≠ toGroup) (n : Node) :
    Conserves E n { n with mTrxDb := n.mTrxDb.moveGroup fromGroup toGroup } :=
  fun hp => ⟨hp.moveGroup _ _, fun _ _ => hp.holds_moveGroup hne⟩

end Conserves

theorem Conserves.frame (E : Externals) : PoolFrame (Conserves E) where
  of_eq h _ := of_eq h
  trans := trans
  moveTransactions := moveTransactions
  moveGroup := moveGroup

inductive PoolCall
  | call (c : Call)
  | createGenBlock

namespace PoolCall

def run (E : Externals) (clock : Clock) : PoolCall → NodeM Unit
  | .call c => c.run E clock
  | .createGenBlock => discard <| Node.createGenBlock E clock

def brings (E : Externals) : PoolCall → List Hashcode
  | .call (.addTransaction tx) => [E.hashSignedTrx tx]
  | .call (.addFullBlock fbs) => fbs.trxs.map E.hashSignedTrx
  | _ => []

end PoolCall

inductive PoolRun (E : Externals) : Node → List PoolCall → Node → Prop
  | nil {n : Node} : PoolRun E n [] n
  | cons {n n' : Node} {cs : List PoolCall} (c : PoolCall) (clock : Clock) :
      PoolRun E (Lib.finalState (c.run E clock n)) cs n' → PoolRun E n (c :: cs) n'

structure Gains (E : Externals) (l : List Hashcode) (n n' : Node) : Prop where
  pool : n'.mTrxDb.Pool E
  knows : ∀ h, n'.mTrxDb.knows h ↔ n.mTrxDb.knows h ∨ h ∈ l

theorem Gains.of_conserves (hp : n.mTrxDb.Pool E) (h : Conserves E n n') : Gains E [] n n' := by
  obtain ⟨hp', hholds⟩ := h hp
  refine ⟨hp', fun k => ?_⟩
  simp only [TrxDb.knows_iff_holds, hholds, List.not_mem_nil, or_false]

theorem Gains.trans {l l' : List Hashcode} (h : Gains E l n n') (h' : Gains E l' n' n'') :
    Gains E (l ++ l') n n'' := by
  refine ⟨h'.pool, fun k => ?_⟩
  rw [h'.knows, h.knows, List.mem_append, or_assoc]

theorem gains_insert (hp : n.mTrxDb.Pool E) {t : SignedTransaction}
    (hnew : ¬ n.mTrxDb.knows (E.hashSignedTrx t)) (hn' : n'.mTrxDb =
      n.mTrxDb.insert ⟨.pending, E.hashSignedTrx t⟩ t) : Gains E [E.hashSignedTrx t] n n' := by
  constructor
  · rw [hn']
    exact hp.insert hnew
  · intro h
    rw [hn', TrxDb.knows_iff_holds, TrxDb.knows_iff_holds, List.mem_singleton]
    constructor
    · rintro ⟨t', ht'⟩
      obtain hold | ⟨hkey, -⟩ := TrxDb.holds_of_insert ht'
      · exact Or.inl ⟨t', hold⟩
      · exact Or.inr hkey.symm
    · rintro (⟨t', ht'⟩ | rfl)
      · exact ⟨t', ht'.insert hnew⟩
      · refine ⟨t, .pending, ?_⟩
        rw [TrxDb.getElem?_insert', if_pos rfl]

theorem gains_addTransaction (hp : n.mTrxDb.Pool E) (clock : Clock) (tx : SignedTransaction) :
    Gains E [E.hashSignedTrx tx] n (Lib.finalState (addTransaction E clock tx n)) := by
  unfold addTransaction
  rw [Lib.get_bind]
  split
  · rename_i hknown
    refine ⟨hp, fun h => ?_⟩
    constructor
    · exact Or.inl
    · rintro (hold | hnew)
      · exact hold
      · rw [List.mem_singleton.mp hnew]
        exact hknown
  · rename_i hnew
    rw [Lib.modify_bind, Lib.get_bind]
    have hstored : Gains E [E.hashSignedTrx tx] n { n with
        mTrxDb := n.mTrxDb.insert ⟨.pending, E.hashSignedTrx tx⟩ tx
        signals := n.signals ++ [.newTransaction tx] } := gains_insert hp hnew rfl
    have hframe := Conserves.frame E
    have hrest := fun x (hx : Keeps (Conserves E) (x : NodeM Int)) =>
      hstored.trans (.of_conserves hstored.pool (hx _))
    apply hrest
    split
    · exact hframe.bind (hframe.startBlock clock) fun _ => hframe.pure _
    · exact hframe.bind (Keeps.discard (hframe.createGenBlock clock)) fun _ => hframe.pure _

theorem gains_store (hp : n.mTrxDb.Pool E) (fbs : FullBlockState) :
    Gains E (fbs.trxs.map E.hashSignedTrx) n (n.store E fbs) := by
  refine ⟨hp.store fbs.trxs, fun h => ?_⟩
  rw [store, TrxDb.knows_iff_stage, TrxDb.knows_iff_stage, hp.stage_store]
  grind

theorem gains_call (hp : n.mTrxDb.Pool E) (clock : Clock) (c : PoolCall) :
    Gains E (c.brings E) n (Lib.finalState (c.run E clock n)) := by
  cases c with
  | createGenBlock =>
    exact .of_conserves hp (Keeps.discard ((Conserves.frame E).createGenBlock clock) n)
  | call c =>
    cases c with
    | addTransaction tx =>
      have hgains := gains_addTransaction hp clock tx
      rwa [← Lib.finalState_discard] at hgains
    | addBlock blk =>
      exact .of_conserves hp (Keeps.discard ((Conserves.frame E).addBlock clock blk) n)
    | addFullBlock fbs =>
      have hstore := gains_store hp fbs
      have hrest : Conserves E (n.store E fbs) (Lib.finalState (addFullBlock E clock fbs n)) :=
        (Conserves.frame E).addFullBlock clock fbs n
      have hgains := hstore.trans (.of_conserves hstore.pool hrest)
      rwa [List.append_nil, ← Lib.finalState_discard] at hgains
    | configureGeneration gn on =>
      exact .of_conserves hp ((Conserves.frame E).configureGeneration clock gn on n)
    | generatedBlock b => exact .of_conserves hp ((Conserves.frame E).generatedBlock clock b n)

theorem PoolRun.gains {cs : List PoolCall} (hp : n.mTrxDb.Pool E) (hrun : PoolRun E n cs n') :
    Gains E (cs.flatMap (PoolCall.brings E)) n n' := by
  induction hrun with
  | nil => exact .of_conserves hp (Conserves.refl _)
  | cons c clock _ ih =>
    have hfirst := gains_call hp clock c
    exact hfirst.trans (ih hfirst.pool)

def InOneGroup (E : Externals) (n : Node) (h : Hashcode) : Prop :=
  ∃ g t, n.mTrxDb[TrxKey.mk g h]? = some t ∧ E.hashSignedTrx t = h ∧
    ∀ g', (n.mTrxDb[TrxKey.mk g' h]?).isSome → g' = g

theorem inOneGroup_iff (hp : n.mTrxDb.Pool E) (h : Hashcode) :
    n.InOneGroup E h ↔ n.mTrxDb.knows h := by
  rw [TrxDb.knows_iff_holds]
  constructor
  · rintro ⟨g, t, ht, -, -⟩
    exact ⟨t, g, ht⟩
  · rintro ⟨t, g, ht⟩
    refine ⟨g, t, ht, hp.keyed ht, fun g' hs => hp.exclusive hs ?_⟩
    rw [ht]
    rfl

/-- What the pool ever held is in one group of it still, and the loop that moves a group ends. -/
theorem transactions_kept {cs : List PoolCall} (hp : n.mTrxDb.Pool E) (hrun : PoolRun E n cs n') :
    n'.mTrxDb.Pool E ∧
      (∀ h, n.mTrxDb.knows h ∨ h ∈ cs.flatMap (PoolCall.brings E) ↔ n'.InOneGroup E h) ∧
        ∀ (db : TrxDb) fromGroup toGroup, ∃ fuel,
          TrxDb.moveGroupLoop fromGroup toGroup fuel db =
            some (db.moveGroup fromGroup toGroup) := by
  have hgains := hrun.gains hp
  refine ⟨hgains.pool, fun h => ?_, TrxDb.exists_moveGroupLoop⟩
  rw [inOneGroup_iff hgains.pool, hgains.knows]

theorem transactions_kept_heavyBlock : ∃ n', PoolRun (Wire.externals nonceHash) firstNode
    [.call (.addFullBlock heavyBlock), .call (.addTransaction idle), .createGenBlock] n' ∧
      n'.InOneGroup (Wire.externals nonceHash) ((Wire.externals nonceHash).hashSignedTrx idle) := by
  have hp : firstNode.mTrxDb.Pool (Wire.externals nonceHash) :=
    reachable_firstNode.sound.pool
  have hrun := PoolRun.cons (E := Wire.externals nonceHash) (n := firstNode)
    (.call (.addFullBlock heavyBlock)) noon (.cons (.call (.addTransaction idle)) noon
      (.cons .createGenBlock noon .nil))
  refine ⟨_, hrun, ((transactions_kept hp hrun).2.1 _).mp (Or.inr ?_)⟩
  exact List.mem_cons_self

end Node

end Gpm
