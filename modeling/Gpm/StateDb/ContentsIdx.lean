import Gpm.StateDb.Contents

namespace Gpm

open Lib (sortUnique Increasing outcome)

namespace Layer

def keysOf (a : Index) (l : Layer) : List AccountKey :=
  l.lastTransferMap.keys.filter fun k => k.accountName = a

end Layer

namespace Database

/-- No stock of an account is found twice: an overlay has none that is found below it, and a
`state_database` none that is committed, if its loop ends behind the last key. -/
def Fresh (a : Index) : Database → Prop
  | .null => True
  | .file d => d.keysBehind a = [] → ∀ k ∈ d.toLayer.keysOf a, k ∉ d.mTransferDb.keys
  | .trx base l => (∀ k ∈ l.keysOf a, ¬ (base.getLastTransferIndex k).isSome) ∧ base.Fresh a

/-- Where the loop of a `state_database` ends behind the last key, the stocks are in order as they
are found: those in memory, then those that are committed. -/
def InOrder (E : Externals) (a : Index) : Database → Prop
  | .file d => d.keysBehind a = [] →
      ((d.keysOf a).Pairwise fun k k' => compare
        ((Database.file d).nameOf E k.typeName) ((Database.file d).nameOf E k'.typeName) = .lt) ∧
      ∀ k ∈ d.toLayer.keysOf a, ∀ k' ∈ d.keysOf a, compare
        ((Database.file d).nameOf E k.typeName) ((Database.file d).nameOf E k'.typeName) = .lt
  | _ => True

instance {account : Name} {db : Database} : Decidable (db.Meets account) :=
  inferInstanceAs (Decidable (_ ∨ _))

instance decidableFresh {a : Index} : (db : Database) → Decidable (db.Fresh a)
  | .null => inferInstanceAs (Decidable True)
  | .file _ => inferInstanceAs (Decidable (_ → _))
  | .trx base _ =>
    have : Decidable (base.Fresh a) := decidableFresh base
    inferInstanceAs (Decidable (_ ∧ base.Fresh a))

instance {E : Externals} {a : Index} : (db : Database) → Decidable (db.InOrder E a)
  | .null => inferInstanceAs (Decidable True)
  | .file _ => inferInstanceAs (Decidable (_ → _ ∧ _))
  | .trx _ _ => inferInstanceAs (Decidable True)

end Database

structure ContentsSafe (E : Externals) (fuel : ℕ) (account : Name) (db : Database) : Prop where
  names : ∃ ns, outcome (DbM.getAccountContents E fuel account db) = .ok ns ∧
    (account ∉ db.names → ns = [])
  indexes : ∃ cts, db.getAccountContentsIdx ((db.ledger E).index account) = .ok cts

structure ContentsExact (E : Externals) (fuel : ℕ) (account : Name) (db : Database) : Prop where
  names : ∃ ns, outcome (DbM.getAccountContents E fuel account db) = .ok ns ∧
    Increasing compare ns ∧ ∀ S, S ∈ ns ↔ db.Deals E account S
  indexes : ∃ cts, db.getAccountContentsIdx ((db.ledger E).index account) =
    .ok cts ∧ cts.Nodup ∧
    ∀ t, t ∈ cts ↔ ∃ S, db.Deals E account S ∧ t = (db.ledger E).index S

namespace AccountKey

variable {ks : List AccountKey} {a t : Index}

theorem mem_typeNames :
    t ∈ (ks.filter fun k => k.accountName = a).map AccountKey.typeName ↔ ⟨a, t⟩ ∈ ks := by
  simp only [List.mem_map, List.mem_filter, decide_eq_true_iff]
  constructor
  · rintro ⟨k, ⟨hk, rfl⟩, rfl⟩
    exact hk
  · intro hk
    exact ⟨_, ⟨hk, rfl⟩, rfl⟩

theorem nodup_typeNames (h : Increasing cmp ks) :
    ((ks.filter fun k => k.accountName = a).map AccountKey.typeName).Nodup := by
  apply List.Nodup.map_on
  · intro k hk k' hk' heq
    have ha := of_decide_eq_true (List.mem_filter.mp hk).2
    have ha' := of_decide_eq_true (List.mem_filter.mp hk').2
    cases k
    cases k'
    simp only [mk.injEq]
    exact ⟨ha.trans ha'.symm, heq⟩
  · exact (h.filter _).nodup

theorem nodup_typeNames_append (h : Increasing cmp ks) {cts : List Index} {P : AccountKey → Prop}
    (hmem : ∀ t, t ∈ cts ↔ P ⟨a, t⟩) :
    ((ks.filter fun k => k.accountName = a).map AccountKey.typeName ++ cts).Nodup ↔
      (∀ k ∈ ks.filter fun k => k.accountName = a, ¬ P k) ∧ cts.Nodup := by
  rw [List.nodup_append, and_iff_right (nodup_typeNames h), and_comm]
  apply and_congr_left
  intro _
  constructor
  · intro hdisjoint k hk hP
    have ha := of_decide_eq_true (List.mem_filter.mp hk).2
    have hkey : (⟨a, k.typeName⟩ : AccountKey) = k := by rw [← ha]
    exact hdisjoint _ (List.mem_map_of_mem hk) _ ((hmem _).mpr (by rwa [hkey])) rfl
  · rintro hnot t ht _ hcts rfl
    rw [mem_typeNames] at ht
    exact hnot _ (List.mem_filter.mpr ⟨ht, decide_eq_true rfl⟩) ((hmem t).mp hcts)

end AccountKey

namespace Layer

variable {l : Layer} {i : ℕ}

theorem contentsIdx_within (i : ℕ) (l : Layer) : l.contentsIdx (some i) =
    .ok ((l.lastTransferMap.keys.filter (Lib.within AccountKey.cmp (.first (some i))
      (.first (Index.next (some i))))).map AccountKey.typeName) := by
  have hle : (AccountKey.cmp (.first (some i)) (.first (Index.next (some i)))).isLE := by
    rw [AccountKey.first_isLE, AccountKey.first, Index.next, Index.cmp_some, Nat.isLE_compare]
    exact Nat.le_succ i
  rw [contentsIdx, Lib.walkRange_eq (AccountKey.keys_increasing _) hle, List.mapM_pure]
  rfl

theorem contentsIdx_some
    (hgap : ∀ k ∈ l.lastTransferMap.keys, k ≠ .first (some (i + 1))) :
    l.contentsIdx (some i) = .ok ((l.keysOf (some i)).map AccountKey.typeName) := by
  have hkeys : l.lastTransferMap.keys.filter
      (Lib.within AccountKey.cmp (.first (some i)) (.first (Index.next (some i)))) =
        l.keysOf (some i) := by
    apply List.filter_congr
    intro k hk
    rw [Bool.eq_iff_iff, AccountKey.within_iff, decide_eq_true_iff, or_iff_left (hgap k hk)]
  rw [contentsIdx_within, hkeys]

theorem contentsIdx_none (hreal : ∀ k ∈ l.lastTransferMap.keys, k.accountName ≠ none)
    (hquiet : ∀ k ∈ l.lastTransferMap.keys, k = .first (some 0)) :
    l.contentsIdx none = .ok [] := by
  rw [contentsIdx, Lib.walkRange_of_lt, if_pos fun k hk =>
    AccountKey.isLE_least_iff.mpr (hquiet k hk)]
  · rfl
  · intro k hk
    rw [AccountKey.first_isLE]
    cases ha : k.accountName with
    | none => exact absurd ha (hreal k hk)
    | some i => simp [Index.cmp_none]

end Layer

namespace StateDatabase

variable {d : StateDatabase} {a : Index}

theorem scanContentsIdx_eq {ks rest : List AccountKey} (ha : ∀ k ∈ ks, k.accountName = a)
    (hrest : ∀ k ∈ rest, k.accountName ≠ a) (cts : List Index) :
    scanContentsIdx a (ks ++ rest) cts =
      if rest = [] then cts ++ ks.map AccountKey.typeName
      else sortUnique Index.cmp (cts ++ ks.map AccountKey.typeName) := by
  induction ks generalizing cts with
  | nil =>
    rw [List.nil_append, List.map_nil, List.append_nil]
    cases rest with
    | nil => rfl
    | cons k rest =>
      rw [scanContentsIdx, if_neg (hrest k List.mem_cons_self), if_neg (List.cons_ne_nil k rest)]
  | cons k ks ih =>
    rw [List.cons_append, scanContentsIdx, if_pos (ha k List.mem_cons_self),
      ih (fun k hk => ha k (List.mem_cons_of_mem _ hk)), List.map_cons, List.append_assoc,
      List.singleton_append]

theorem scanContentsIdx_search (cts : List Index) :
    scanContentsIdx a (d.search a) cts =
      if d.keysBehind a = [] then cts ++ (d.keysOf a).map AccountKey.typeName
      else sortUnique Index.cmp (cts ++ (d.keysOf a).map AccountKey.typeName) := by
  rw [search_eq]
  exact scanContentsIdx_eq (fun _ => accountName_of_mem_keysOf)
    (fun _ => accountName_of_mem_keysBehind) cts

end StateDatabase

namespace Database

variable {E : Externals} {allowed : List StateRecord → Index → Prop} {db base : Database}
  {l : Layer} {A S : Name} {i fuel : ℕ}

theorem getAccountContentsIdx_ok (i : ℕ) (db : Database) :
    ∃ cts, db.getAccountContentsIdx (some i) = .ok cts := by
  induction db with
  | null => exact ⟨[], rfl⟩
  | file d => exact ⟨_, by rw [getAccountContentsIdx, Layer.contentsIdx_within]; rfl⟩
  | trx base l ih =>
    obtain ⟨cts, hbase⟩ := ih
    exact ⟨_, by rw [getAccountContentsIdx, Layer.contentsIdx_within, hbase]; rfl⟩

theorem getAccountContentsIdx_some
    (hgap : ∀ k, (db.getLastTransferIndex k).isSome → k ≠ .first (some (i + 1))) :
    ∃ cts, db.getAccountContentsIdx (some i) = .ok cts ∧
      (∀ t, t ∈ cts ↔ (db.getLastTransferIndex ⟨some i, t⟩).isSome) ∧
      (cts.Nodup ↔ db.Fresh (some i)) := by
  induction db with
  | null => exact ⟨[], rfl, by simp [getLastTransferIndex], by simp [Fresh]⟩
  | file d =>
    have hown := Layer.contentsIdx_some (l := d.toLayer) (i := i) fun k hk =>
      hgap k (getLastTransferIndex_file_isSome.mpr (Or.inl hk))
    have hmem : ∀ t, t ∈ (d.toLayer.keysOf (some i)).map AccountKey.typeName ++
        (d.keysOf (some i)).map AccountKey.typeName ↔
          ((Database.file d).getLastTransferIndex ⟨some i, t⟩).isSome := by
      intro t
      rw [List.mem_append, getLastTransferIndex_file_isSome]
      exact or_congr AccountKey.mem_typeNames AccountKey.mem_typeNames
    refine ⟨_, by rw [getAccountContentsIdx, hown]; rfl, ?_⟩
    rw [StateDatabase.scanContentsIdx_search]
    by_cases hend : d.keysBehind (some i) = []
    · rw [if_pos hend]
      refine ⟨hmem, ?_⟩
      rw [Fresh, imp_iff_right hend]
      have hcommitted := AccountKey.keys_increasing d.mTransferDb
      exact (AccountKey.nodup_typeNames_append (AccountKey.keys_increasing _)
        fun _ => AccountKey.mem_typeNames).trans
          (and_iff_left (AccountKey.nodup_typeNames hcommitted))
    · rw [if_neg hend]
      refine ⟨fun t => Lib.mem_sortUnique.trans (hmem t), ?_⟩
      exact iff_of_true (Lib.sortUnique_increasing _).nodup fun h => absurd h hend
  | trx base l ih =>
    have hown := Layer.contentsIdx_some (l := l) (i := i) fun k hk =>
      hgap k (getLastTransferIndex_trx_isSome.mpr (Or.inl hk))
    obtain ⟨cts, hbase, hmem, hnodup⟩ := ih fun k hk =>
      hgap k (getLastTransferIndex_trx_isSome.mpr (Or.inr hk))
    refine ⟨_, by rw [getAccountContentsIdx, hown, hbase]; rfl, fun t => ?_, ?_⟩
    · rw [List.mem_append, getLastTransferIndex_trx_isSome, hmem]
      exact or_congr_left AccountKey.mem_typeNames
    · rw [Fresh, ← hnodup]
      exact AccountKey.nodup_typeNames_append (AccountKey.keys_increasing _) hmem

theorem getAccountContentsIdx_none
    (hreal : ∀ k, (db.getLastTransferIndex k).isSome → k.accountName ≠ none)
    (hquiet : db.Throughout fun d => ∀ k ∈ d.layer.lastTransferMap.keys, k = .first (some 0)) :
    db.getAccountContentsIdx none = .ok [] ∧ db.Fresh none := by
  induction db with
  | null => exact ⟨rfl, trivial⟩
  | file d =>
    have hown := Layer.contentsIdx_none (l := d.toLayer)
      (fun k hk => hreal k (getLastTransferIndex_file_isSome.mpr (Or.inl hk)))
      (hquiet _ List.mem_cons_self)
    have hnone : d.keysOf none = [] := by
      apply List.filter_eq_nil_iff.mpr
      intro k hk
      rw [decide_eq_true_iff]
      exact hreal k (getLastTransferIndex_file_isSome.mpr (Or.inr hk))
    constructor
    · rw [getAccountContentsIdx, hown]
      change Except.ok (StateDatabase.scanContentsIdx none (d.search none) []) = _
      rw [StateDatabase.scanContentsIdx_search, hnone]
      split <;> rfl
    · intro _ k hk hcommitted
      have hmem : k ∈ d.keysOf none := List.mem_filter.mpr
        ⟨hcommitted, (List.mem_filter.mp hk).2⟩
      rw [hnone] at hmem
      cases hmem
  | trx base l ih =>
    obtain ⟨htop, hbelow⟩ := throughout_trx.mp hquiet
    have hown := Layer.contentsIdx_none
      (fun k hk => hreal k (getLastTransferIndex_trx_isSome.mpr (Or.inl hk))) htop
    obtain ⟨hbase, hfresh⟩ := ih
      (fun k hk => hreal k (getLastTransferIndex_trx_isSome.mpr (Or.inr hk))) hbelow
    refine ⟨by rw [getAccountContentsIdx, hown, hbase]; rfl, fun k hk _ => ?_, hfresh⟩
    exact hreal k (getLastTransferIndex_trx_isSome.mpr (Or.inl (List.mem_of_mem_filter hk)))
      (of_decide_eq_true (List.mem_filter.mp hk).2)

theorem quiet_of_not_mem (hA : A ∉ db.names) (hdb : db.Throughout (Meets A)) :
    db.Throughout fun d => ∀ k ∈ d.layer.lastTransferMap.keys, k = .first (some 0) := by
  induction db with
  | null => exact List.forall_mem_nil _
  | file d => exact List.forall_mem_singleton.mpr ((hdb _ List.mem_cons_self).resolve_left hA)
  | trx base l ih =>
    obtain ⟨htop, hbelow⟩ := throughout_trx.mp hdb
    have hbase : A ∉ base.names := fun h => hA (mem_names_trx.mpr (Or.inr h))
    exact throughout_trx.mpr ⟨htop.resolve_left hA, ih hbase hbelow⟩

theorem getAccountContents_trx_increasing {ns : List Name}
    (h : outcome (DbM.getAccountContents E fuel A (.trx base l)) = .ok ns) :
    Increasing compare ns := by
  rw [DbM.getAccountContents] at h
  cases hbase : DbM.getAccountContents E fuel A base with
  | error e base' =>
    rw [hbase] at h
    cases h
  | ok bs base' =>
    rw [hbase] at h
    cases hown : DbM.ownContents E fuel A (.trx base' l) with
    | error e db' =>
      simp only [Lib.bind_error hown] at h
      cases h
    | ok own db' =>
      simp only [Lib.bind_ok hown] at h
      cases h
      exact Lib.sortUnique_increasing _

end Database

namespace Filed

variable {E : Externals} {allowed : List StateRecord → Index → Prop} {db : Database}
  {es : List Posting} {A S : Name} {fuel : ℕ}

theorem accountName_ne_none (h : Filed E db es) (hes : Journal E allowed es) {k : AccountKey}
    (hk : (db.getLastTransferIndex k).isSome) : k.accountName ≠ none := by
  obtain ⟨_, _, i, j, -, -, rfl⟩ := h.names_of_key hes hk
  exact Option.some_ne_none i

theorem increasing_iff_inOrder {d : StateDatabase} (h : Filed E (.file d) es)
    (hes : Journal E allowed es) (hE : LongRecords E) (hdb : (Database.file d).Meets A)
    {ns : List Name}
    (hns : outcome (DbM.getAccountContents E (fuel + 1) A (.file d)) = .ok ns) :
    Increasing compare ns ↔
      (Database.file d).InOrder E (((Database.file d).ledger E).index A) := by
  obtain ⟨own, hown, -, hmem⟩ := h.ownContents_spec hes fuel hdb
  rw [(h.getAccountContents_file hes hown).outcome_eq] at hns
  cases hns
  by_cases hend : d.keysBehind (((Database.file d).ledger E).index A) = []
  · have hsame : ∀ S, S ∈ sortUnique compare own ↔
        S ∈ (d.toLayer.keysOf (((Database.file d).ledger E).index A)).map
          fun k => (Database.file d).nameOf E k.typeName := by
      intro S
      have hvisible : ∀ k ∈ d.lastTransferMap.keys,
          ((Database.file d).getLastTransferIndex k).isSome := fun k hk =>
        Database.getLastTransferIndex_file_isSome.mpr (Or.inl hk)
      rw [Lib.mem_sortUnique, hmem hE, Layer.keysOf, h.mem_names_of_account hes hvisible]
      rfl
    have hsorted : (sortUnique compare own).Pairwise fun a b => compare a b = .lt :=
      Lib.sortUnique_increasing own
    rw [if_pos hend, Database.InOrder, imp_iff_right hend, Increasing, List.pairwise_append,
      and_iff_right hsorted, List.pairwise_map]
    apply and_congr_right
    intro _
    simp only [hsame, List.forall_mem_map]
  · rw [if_neg hend]
    exact iff_of_true (Lib.sortUnique_increasing _) fun h => absurd h hend

theorem getAccountContentsIdx_exact (h : Filed E db es) (hes : Journal E allowed es)
    (hE : LongRecords E) (hdb : db.Throughout (Database.Meets A)) :
    ∃ cts, db.getAccountContentsIdx ((db.ledger E).index A) = .ok cts ∧
      (∀ t, t ∈ cts ↔ ∃ S, db.Deals E A S ∧ t = (db.ledger E).index S) ∧
      (cts.Nodup ↔ db.Fresh ((db.ledger E).index A)) := by
  simp only [h.deals_iff]
  cases hi : (db.ledger E).index A with
  | none =>
    have hA : A ∉ db.names := by
      rw [← h.index_isSome_iff hes, hi]
      simp
    obtain ⟨hnone, hfresh⟩ := Database.getAccountContentsIdx_none
      (fun _ hk => h.accountName_ne_none hes hk) (Database.quiet_of_not_mem hA hdb)
    exact ⟨[], hnone, by simp, iff_of_true List.nodup_nil hfresh⟩
  | some i =>
    obtain ⟨cts, hcts, hmem, hnodup⟩ :=
      Database.getAccountContentsIdx_some fun _ hk => h.ne_first_succ hes hE hi hk
    refine ⟨cts, hcts, fun t => (hmem t).trans ?_, hnodup⟩
    constructor
    · intro hk
      obtain ⟨_, S, _, j, -, hj, heq⟩ := h.names_of_key hes hk
      cases heq
      exact ⟨S, ⟨i, j, rfl, hj, hk⟩, hj.symm⟩
    · rintro ⟨S, ⟨i', j, hi', hj, hk⟩, rfl⟩
      cases hi'
      rwa [hj]

end Filed

section Exact

variable {E : Externals} {db : Database}

/-- The queries for the contents of an account come back, whatever the name, exactly where every
object of the stack either knows the name or holds no key above the least one. -/
theorem accountContents_safe_iff (h : Traded E AnyPosition db) (A : Name) (fuel : ℕ) :
    ContentsSafe E (fuel + 1) A db ↔ db.Throughout (Database.Meets A) := by
  have hallowed : StartsAllowed AnyPosition := startsAllowed_anyPosition
  constructor
  · rintro ⟨⟨ns, hns, -⟩, -⟩
    by_contra hdb
    rw [Database.getAccountContents_error h.throughout hallowed hdb] at hns
    cases hns
  · intro hdb
    obtain ⟨ns, hrun, hnil, -⟩ :=
      Database.getAccountContents_runs h.throughout hallowed fuel hdb
    refine ⟨⟨ns, hrun.outcome_eq, hnil⟩, ?_⟩
    obtain ⟨es, hfiled, hes⟩ := h.journal hallowed
    cases hi : (db.ledger E).index A with
    | some i => exact Database.getAccountContentsIdx_ok i db
    | none =>
      have hA : A ∉ db.names := by
        rw [← hfiled.index_isSome_iff hes, hi]
        simp
      exact ⟨[], (Database.getAccountContentsIdx_none
        (fun _ hk => hfiled.accountName_ne_none hes hk) (Database.quiet_of_not_mem hA hdb)).1⟩

/-- At every object of a stack, the queries for the contents of an account are exact where they
come back, the names are found in order, and no stock is found twice. -/
theorem accountContents_exact_iff (hE : LongRecords E) (hdb : Traded E AnyPosition db)
    {d : Database} (hd : d ∈ db.layers) (A : Name) (fuel : ℕ) :
    ContentsExact E (fuel + 1) A d ↔ d.Throughout (Database.Meets A) ∧
      d.InOrder E ((d.ledger E).index A) ∧ d.Fresh ((d.ledger E).index A) := by
  have hallowed : StartsAllowed AnyPosition := startsAllowed_anyPosition
  have h : Traded E AnyPosition d := hdb.throughout d hd
  obtain ⟨es, hfiled, hes⟩ := h.journal hallowed
  by_cases hmeets : d.Throughout (Database.Meets A)
  · obtain ⟨ns, hrun, -, hmem⟩ :=
      Database.getAccountContents_runs h.throughout hallowed fuel hmeets
    have hinc : Increasing compare ns ↔ d.InOrder E ((d.ledger E).index A) := by
      cases d with
      | null => exact hfiled.founded.elim
      | file d =>
        exact hfiled.increasing_iff_inOrder hes hE (hmeets.of_ne_null (by simp)) hrun.outcome_eq
      | trx base l =>
        exact iff_of_true (Database.getAccountContents_trx_increasing hrun.outcome_eq) trivial
    obtain ⟨cts, hcts, hfound, hnodup⟩ := hfiled.getAccountContentsIdx_exact hes hE hmeets
    constructor
    · rintro ⟨⟨ns', hns', hinc', -⟩, ⟨cts', hcts', hnodup', -⟩⟩
      cases hns'.symm.trans hrun.outcome_eq
      cases hcts'.symm.trans hcts
      exact ⟨hmeets, hinc.mp hinc', hnodup.mp hnodup'⟩
    · rintro ⟨-, horder, hfresh⟩
      exact ⟨⟨ns, hrun.outcome_eq, hinc.mpr horder, hmem hE⟩,
        ⟨cts, hcts, hnodup.mpr hfresh, hfound⟩⟩
  · constructor
    · rintro ⟨⟨ns, hns, -⟩, -⟩
      rw [Database.getAccountContents_error h.throughout hallowed hmeets] at hns
      cases hns
    · rintro ⟨h, -⟩
      exact absurd h hmeets

theorem Traded.mem_layers (h : Traded E AnyPosition db) : db ∈ db.layers := by
  obtain ⟨es, hfiled, -⟩ := h.journal startsAllowed_anyPosition
  cases db with
  | null => exact hfiled.founded.elim
  | _ => exact List.mem_cons_self

end Exact

def paid : Database :=
  let E := Wire.externals fun _ => 0
  let named := Update.step E (Update.step E (.file {}) (.setPublicKey [1] 7)) (.setPublicKey [2] 8)
  Update.step E (Update.step E named (.issue [1] none)) (.transferBalance [1] [2] [1] 5 none)

theorem traded_paid : Traded (Wire.externals fun _ => 0) AnyPosition paid := by
  refine .update (.transferBalance [1] [2] [1] 5 none) (.update (.issue [1] none)
    (.update (.setPublicKey [2] 8) (.update (.setPublicKey [1] 7) (.blank ?_) trivial) trivial)
    ⟨?_, trivial⟩) ⟨?_, ?_, ?_, trivial⟩
  · exact ⟨rfl, rfl, rfl, rfl, rfl, rfl⟩
  all_goals decide +kernel

def paidTwice : Database :=
  Update.step (Wire.externals fun _ => 0) (.trx paid {}) (.transferBalance [1] [2] [1] 5 none)

theorem traded_paidTwice : Traded (Wire.externals fun _ => 0) AnyPosition paidTwice := by
  refine .update (.transferBalance [1] [2] [1] 5 none) traded_paid.overlay ⟨?_, ?_, ?_, trivial⟩
  all_goals decide +kernel

theorem accountContents_unknownName :
    ¬ ∀ (db : Database) (A : Name) (fuel : ℕ), Traded (Wire.externals fun _ => 0)
      AnyPosition db →
      ContentsSafe (Wire.externals fun _ => 0) (fuel + 1) A db := by
  intro h
  obtain ⟨ns, hns, -⟩ := (h paid [3] 0 traded_paid).names
  have hnone : (outcome (DbM.getAccountContents (Wire.externals fun _ => 0) 1 [3] paid)).toOption =
      none := by decide +kernel
  rw [hns] at hnone
  cases hnone

theorem accountContents_safe_paid :
    ContentsSafe (Wire.externals fun _ => 0) 1 [2] paid ∧
      ¬ ContentsSafe (Wire.externals fun _ => 0) 1 [3] paid := by
  rw [accountContents_safe_iff traded_paid, accountContents_safe_iff traded_paid]
  decide +kernel

theorem accountContents_paidTwice :
    ¬ ∀ (db d : Database) (A : Name) (fuel : ℕ),
      Traded (Wire.externals fun _ => 0) AnyPosition db → d ∈ db.layers → A ∈ db.names →
        ContentsExact (Wire.externals fun _ => 0) (fuel + 1) A d := by
  intro h
  have hregistered : [2] ∈ paidTwice.names := by decide +kernel
  obtain ⟨cts, hcts, hnodup, -⟩ := (h paidTwice paidTwice [2] 0 traded_paidTwice
    traded_paidTwice.mem_layers hregistered).indexes
  have htwice : (paidTwice.getAccountContentsIdx
      ((paidTwice.ledger (Wire.externals fun _ => 0)).index [2])).toOption =
        some [some 0, some 0] := by decide +kernel
  rw [hcts] at htwice
  cases htwice
  revert hnodup
  decide

theorem accountContents_exact_paid :
    ContentsExact (Wire.externals fun _ => 0) 1 [2] paid ∧
      ¬ ContentsExact (Wire.externals fun _ => 0) 1 [2] paidTwice := by
  rw [accountContents_exact_iff (longRecords_wire _) traded_paid traded_paid.mem_layers,
    accountContents_exact_iff (longRecords_wire _) traded_paidTwice traded_paidTwice.mem_layers]
  decide +kernel

end Gpm
