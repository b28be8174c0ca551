import Gpm.StateDb.Issue
import Gpm.StateDb.Journal

namespace Gpm

open Lib (sortUnique walkRange lowerBound Increasing Runs outcome)

def Index.next : Index → Index
  | none => some 0
  | some i => some (i + 1)

def Index.cmp : Index → Index → Ordering :=
  compareLex (compareOn fun i => (AccountKey.rank i).1) (compareOn fun i => (AccountKey.rank i).2)

instance : Std.TransCmp Index.cmp := by unfold Index.cmp; infer_instance

instance : Std.LawfulEqCmp Index.cmp where
  eq_of_compare := by
    intro i j h
    simp only [Index.cmp, compareLex, compareOn, Ordering.then_eq_eq, Nat.compare_eq_eq] at h
    exact AccountKey.rank_injective (Prod.ext h.1 h.2)

namespace AccountKey

def first (account : Index) : AccountKey := ⟨account, some 0⟩

end AccountKey

namespace Layer

def contentsIdx (acntIdx : Index) (l : Layer) : Except Fault (List Index) :=
  walkRange AccountKey.cmp (throw .outOfBounds) (fun k => pure k.typeName) (.first acntIdx)
    (.first (Index.next acntIdx)) l.lastTransferMap.keys

end Layer

namespace StateDatabase

/-- The keys of `m_transfer_db` that a cursor meets from the first of an account on. -/
def search (account : Index) (d : StateDatabase) : List AccountKey :=
  d.mTransferDb.keys.drop (lowerBound AccountKey.cmp (.first account) d.mTransferDb.keys)

def scanContentsIdx (acntIdx : Index) : List AccountKey → List Index → List Index
  | [], cts => cts
  | k :: ks, cts =>
    if k.accountName = acntIdx then scanContentsIdx acntIdx ks (cts ++ [k.typeName])
    else sortUnique Index.cmp cts

end StateDatabase

namespace Database

def getAccountContentsIdx (acntIdx : Index) : Database → Except Fault (List Index)
  | .null => return []
  | .file d => do
    let cts ← d.toLayer.contentsIdx acntIdx
    return StateDatabase.scanContentsIdx acntIdx (d.search acntIdx) cts
  | .trx base l => do
    let cts ← l.contentsIdx acntIdx
    let bcts ← base.getAccountContentsIdx acntIdx
    return cts ++ bcts

end Database

namespace DbM

variable (E : Externals) (fuel : ℕ)

def ownContents (acnt : Name) : DbM (List Name) := do
  let lak ← getNameIndex E acnt
  let uak ← getNameIndex E acnt
  let db ← get
  walkRange AccountKey.cmp (throw .outOfBounds) (fun k => getNameForIndex E fuel k.typeName)
    (.first lak) (.first (Index.next uak)) db.layer.lastTransferMap.keys

def scanContents (acntIdx : Index) : List AccountKey → List Name → DbM (List Name)
  | [], names => return names
  | k :: ks, names =>
    if k.accountName = acntIdx then do
      let n ← getNameForIndex E fuel k.typeName
      scanContents acntIdx ks (names ++ [n])
    else return sortUnique compare names

def getAccountContents (acnt : Name) : DbM (List Name)
  | .null => .ok [] .null
  | .file d =>
    (do
      let names ← ownContents E fuel acnt
      let ak ← getNameIndex E acnt
      scanContents E fuel ak (d.search ak) (sortUnique compare names)) (.file d)
  | .trx base l =>
    match getAccountContents acnt base with
    | .error e base => .error e (.trx base l)
    | .ok names base =>
      (do
        let own ← ownContents E fuel acnt
        return sortUnique compare (names ++ own)) (.trx base l)

end DbM

namespace Database

def nameOf (E : Externals) (db : Database) (i : Index) : Name :=
  (db.names.find? fun n => (db.ledger E).index n = i).getD []

def Deals (E : Externals) (account type : Name) (db : Database) : Prop :=
  ∃ i j, (db.ledger E).index account = some i ∧ (db.ledger E).index type = some j ∧
    ∃ r ∈ db.log E, ⟨some i, some j⟩ ∈ r.data.accounts

def Meets (account : Name) (db : Database) : Prop :=
  account ∈ db.names ∨ ∀ k ∈ db.layer.lastTransferMap.keys, k = .first (some 0)

def ownKeys (i : ℕ) (db : Database) : List AccountKey :=
  db.layer.lastTransferMap.keys.filter
    (Lib.within AccountKey.cmp (.first (some i)) (.first (Index.next (some i))))

end Database

def LongRecords (E : Externals) : Prop := ∀ r, 1 < (E.raw.pack r).length

theorem longRecords_wire (hashBlock : Block → Hashcode) :
    LongRecords (Wire.externals hashBlock) := by
  intro r
  have hid : (Wire.u16.pack (Wire.id r.data)).length = 2 := Lib.Format.length_digits 2 _
  change 1 < (Wire.stateRecord.pack r).length
  simp only [Wire.stateRecord, Lib.Format.tagged, List.length_append, hid]
  omega

theorem le_of_mem_postRecords {E : Externals} {es : List Posting} {size : ℕ} {r : StateRecord}
    (hr : r ∈ postRecords E size es) : size ≤ r.previous := by
  induction es generalizing size with
  | nil => cases hr
  | cons e es ih =>
    rw [postRecords, List.mem_cons] at hr
    obtain rfl | hr := hr
    · exact Nat.le_refl _
    · exact Nat.le_trans (Nat.le_add_right _ _) (ih hr)

theorem add_length_le_of_mem_postRecords {E : Externals} {es : List Posting} {size : ℕ}
    {r r' : StateRecord} (hr : r ∈ postRecords E size es) (hr' : r' ∈ postRecords E size es)
    (hlt : r.previous < r'.previous) : r.previous + (E.raw.pack r).length ≤ r'.previous := by
  induction es generalizing size with
  | nil => cases hr
  | cons e es ih =>
    rw [postRecords, List.mem_cons] at hr hr'
    obtain rfl | hr := hr
    · obtain rfl | hr' := hr'
      · exact absurd hlt (Nat.lt_irrefl _)
      · exact le_of_mem_postRecords hr'
    · obtain rfl | hr' := hr'
      · have hle := le_of_mem_postRecords hr
        simp only at hlt
        omega
      · exact ih hr hr'

theorem Index.cmp_some (i j : ℕ) : Index.cmp (some i) (some j) = compare i j := by
  simp [Index.cmp, compareLex, compareOn, AccountKey.rank]

theorem Index.cmp_none (j : ℕ) : Index.cmp none (some j) = .gt := rfl

namespace AccountKey

variable {account : Index} {k : AccountKey} {i : ℕ}

theorem mem_keys {m : AccountIndex} : k ∈ m.keys ↔ m[k]?.isSome := by
  rw [Std.ExtTreeMap.mem_keys, Std.ExtTreeMap.mem_iff_isSome_getElem?]

theorem keys_increasing (m : AccountIndex) : Increasing cmp m.keys := Std.ExtTreeMap.ordered_keys

theorem cmp_eq (a b : AccountKey) :
    cmp a b = (Index.cmp a.accountName b.accountName).then (Index.cmp a.typeName b.typeName) := by
  simp only [cmp, Index.cmp, compareLex, Ordering.then_assoc]
  rfl

theorem zero_isLE (t : Index) : (Index.cmp (some 0) t).isLE := by
  cases t with
  | none => rfl
  | some t => cases t <;> rfl

theorem first_isLE : (cmp (first account) k).isLE ↔ (Index.cmp account k.accountName).isLE := by
  rw [cmp_eq]
  have hzero := zero_isLE k.typeName
  unfold first
  cases Index.cmp account k.accountName with
  | lt => exact iff_of_true rfl rfl
  | eq => exact iff_of_true hzero rfl
  | gt => rfl

theorem isLE_first_iff : (cmp k (first account)).isLE ↔
    Index.cmp k.accountName account = .lt ∨ k = first account := by
  have hzero := zero_isLE k.typeName
  obtain ⟨a, t⟩ := k
  rw [cmp_eq]
  simp only [first, mk.injEq]
  constructor
  · intro hle
    cases hcmp : Index.cmp a account with
    | lt => exact Or.inl rfl
    | gt =>
      rw [hcmp] at hle
      cases hle
    | eq =>
      rw [hcmp] at hle
      have hle : (Index.cmp t (some 0)).isLE := hle
      exact Or.inr ⟨Std.LawfulEqCmp.eq_of_compare hcmp,
        Std.LawfulEqCmp.eq_of_compare (Std.OrientedCmp.isLE_antisymm hle hzero)⟩
  · rintro (hlt | ⟨rfl, rfl⟩)
    · rw [hlt]
      rfl
    · rw [← cmp_eq ⟨a, some 0⟩ ⟨a, some 0⟩]
      exact Std.ReflCmp.isLE_rfl

theorem within_iff : Lib.within cmp (first (some i)) (first (Index.next (some i))) k ↔
    k.accountName = some i ∨ k = first (some (i + 1)) := by
  rw [Lib.within, Bool.and_eq_true, first_isLE, Index.next, isLE_first_iff]
  obtain ⟨a, t⟩ := k
  cases a with
  | none => simp [first, Index.cmp_none]
  | some a =>
    simp only [Index.cmp_some, Nat.isLE_compare, Nat.compare_eq_lt, first, mk.injEq,
      Option.some.injEq]
    constructor
    · rintro ⟨hle, hlt | heq⟩
      · exact Or.inl (by omega)
      · exact Or.inr heq
    · rintro (rfl | ⟨rfl, rfl⟩)
      · exact ⟨Nat.le_refl _, Or.inl (Nat.lt_succ_self _)⟩
      · exact ⟨Nat.le_succ _, Or.inr ⟨rfl, rfl⟩⟩

theorem isLE_least_iff : (cmp k (first (Index.next none))).isLE ↔ k = first (some 0) := by
  rw [Index.next, isLE_first_iff, or_iff_right]
  intro hlt
  have hzero := zero_isLE k.accountName
  rw [Std.OrientedCmp.gt_of_lt hlt] at hzero
  cases hzero

end AccountKey

namespace StateDatabase

def keysOf (i : Index) (d : StateDatabase) : List AccountKey :=
  d.mTransferDb.keys.filter fun k => k.accountName = i

def keysBehind (i : Index) (d : StateDatabase) : List AccountKey :=
  d.mTransferDb.keys.filter fun k => (Index.cmp i k.accountName).isLT

theorem accountName_of_mem_keysOf {a : Index} {d : StateDatabase} {k : AccountKey}
    (hk : k ∈ d.keysOf a) : k.accountName = a :=
  of_decide_eq_true (List.mem_filter.mp hk).2

theorem accountName_of_mem_keysBehind {a : Index} {d : StateDatabase} {k : AccountKey}
    (hk : k ∈ d.keysBehind a) :
    k.accountName ≠ a := by
  rintro rfl
  have hlt := (List.mem_filter.mp hk).2
  have hself : Index.cmp k.accountName k.accountName = .eq := Std.ReflCmp.compare_self
  rw [hself] at hlt
  cases hlt

theorem search_eq (i : Index) (d : StateDatabase) : d.search i = d.keysOf i ++ d.keysBehind i := by
  have hinc := AccountKey.keys_increasing d.mTransferDb
  have hbehind : ∀ k : AccountKey, (AccountKey.cmp (.first i) k).isLE →
      (Index.cmp i k.accountName).isLT = !decide (k.accountName = i) := by
    intro k hle
    rw [AccountKey.first_isLE] at hle
    by_cases heq : k.accountName = i
    · have hself : Index.cmp i i = .eq := Std.ReflCmp.compare_self
      simp [heq, hself]
    · simp [heq, Lib.lt_of_isLE_of_ne hle (Ne.symm heq)]
  have hsplit := (hinc.filter fun k => (AccountKey.cmp (.first i) k).isLE).filter_append
    (fun k hk => hbehind k (List.mem_filter.mp hk).2) fun k hk k' _ hlt hk' => by
      have hle := (List.mem_filter.mp hk).2
      rw [AccountKey.first_isLE] at hle
      rw [decide_eq_true_iff] at hk' ⊢
      by_contra hne
      have hless := Lib.lt_of_isLE_of_ne hle (Ne.symm hne)
      rw [AccountKey.cmp_eq, hk', Std.OrientedCmp.gt_of_lt hless] at hlt
      cases hlt
  rw [search, hinc.drop_lowerBound, hsplit, List.filter_filter, List.filter_filter, keysOf,
    keysBehind]
  congr 1
  · apply List.filter_congr
    intro k _
    rw [Bool.and_eq_left_iff_imp, decide_eq_true_iff]
    rintro rfl
    rw [AccountKey.first_isLE]
    exact Std.ReflCmp.isLE_rfl
  · apply List.filter_congr
    intro k _
    rw [Bool.and_eq_left_iff_imp]
    intro hlt
    rw [AccountKey.first_isLE]
    rw [Ordering.isLT_iff_eq_lt] at hlt
    rw [hlt]
    rfl

end StateDatabase

namespace Database

variable {E : Externals} {db base : Database} {l : Layer} {d : StateDatabase} {k : AccountKey}

theorem getLastTransferIndex_trx_isSome : ((Database.trx base l).getLastTransferIndex k).isSome ↔
    k ∈ l.lastTransferMap.keys ∨ (base.getLastTransferIndex k).isSome := by
  rw [getLastTransferIndex, Option.isSome_or, Bool.or_eq_true, AccountKey.mem_keys]

theorem getLastTransferIndex_file_isSome : ((Database.file d).getLastTransferIndex k).isSome ↔
    k ∈ d.lastTransferMap.keys ∨ k ∈ d.mTransferDb.keys := by
  rw [getLastTransferIndex, Option.isSome_or, Bool.or_eq_true, AccountKey.mem_keys,
    AccountKey.mem_keys]

theorem isSome_of_mem_layer (h : k ∈ db.layer.lastTransferMap.keys) :
    (db.getLastTransferIndex k).isSome := by
  cases db with
  | null => simp [layer] at h
  | file d => exact getLastTransferIndex_file_isSome.mpr (Or.inl h)
  | trx base l => exact getLastTransferIndex_trx_isSome.mpr (Or.inl h)

@[simp] theorem nameOf_moved (p : ℕ) (i : Index) : (db.moved p).nameOf E i = db.nameOf E i := by
  simp [nameOf]

end Database

theorem Indexed.ownContents_eq {E : Externals} {db : Database} (h : Indexed E db) (fuel : ℕ)
    (A : Name) : ∃ p, DbM.ownContents E fuel A db =
      walkRange AccountKey.cmp (throw .outOfBounds)
        (fun k => DbM.getNameForIndex E fuel k.typeName) (.first ((db.ledger E).index A))
        (.first (Index.next ((db.ledger E).index A))) db.layer.lastTransferMap.keys
        (db.moved p) := by
  obtain ⟨db₁, hlo, p, rfl⟩ := DbM.getNameIndex_runs h A
  obtain ⟨db₂, hhi, q, rfl⟩ := DbM.getNameIndex_runs (h.moved p) A
  simp only [Database.posts_nil, Database.moved_moved, Database.ledger_moved] at hlo hhi
  refine ⟨q, ?_⟩
  rw [DbM.ownContents, Lib.bind_ok hlo, Lib.bind_ok hhi, Lib.get_bind, Database.layer_moved]

namespace Filed

variable {E : Externals} {allowed : List StateRecord → Index → Prop} {db : Database}
  {es : List Posting} {A S : Name} {i j fuel : ℕ} {k : AccountKey}

theorem index_isSome_iff (h : Filed E db es) (hes : Journal E allowed es) :
    ((db.ledger E).index A).isSome ↔ A ∈ db.names := by
  rw [← (h.wellFormed hes).coherent.mem_names]
  exact List.mem_toFinset

theorem names_of_key (h : Filed E db es) (hes : Journal E allowed es)
    (hk : (db.getLastTransferIndex k).isSome) : ∃ A S i j, (db.ledger E).index A = some i ∧
      (db.ledger E).index S = some j ∧ k = ⟨some i, some j⟩ := by
  rw [h.getLastTransferIndex_eq, Option.isSome_map, Ledger.account_posts_isSome] at hk
  obtain hempty | ⟨e, he, hmem⟩ := hk
  · cases hempty
  · rw [h.ledger]
    exact hes.names_of_accounts he hmem

theorem nameOf_eq (h : Filed E db es) (hes : Journal E allowed es)
    (hi : (db.ledger E).index S = some j) : db.nameOf E (some j) = S := by
  have hmem : S ∈ db.names := (h.index_isSome_iff hes).mp (by rw [hi]; rfl)
  unfold Database.nameOf
  cases hfind : db.names.find? fun n => (db.ledger E).index n = some j with
  | none => exact absurd (decide_eq_true hi) (List.find?_eq_none.mp hfind S hmem)
  | some n =>
    have hn := List.find?_some hfind
    exact (h.wellFormed hes).coherent.index_inj (of_decide_eq_true hn) hi

variable (fuel) in
theorem getNameForIndex_runs (h : Filed E db es) (hi : (db.ledger E).index S = some j) :
    Runs (trace E) (DbM.getNameForIndex E (fuel + 1) (some j)) db S [] := by
  rw [h.ledger] at hi
  obtain ⟨k, hk⟩ := h.mem_define hi
  exact h.getNameForIndex_define hk fuel

theorem mem_map_nameOf (h : Filed E db es) (hes : Journal E allowed es) {ks : List AccountKey}
    (hks : ∀ k ∈ ks, (db.getLastTransferIndex k).isSome) :
    S ∈ ks.map (fun k => db.nameOf E k.typeName) ↔
      ∃ a j, (⟨a, some j⟩ : AccountKey) ∈ ks ∧ (db.ledger E).index S = some j := by
  rw [List.mem_map]
  constructor
  · rintro ⟨k, hk, rfl⟩
    obtain ⟨_, T, i, j, -, hj, rfl⟩ := h.names_of_key hes (hks k hk)
    rw [h.nameOf_eq hes hj]
    exact ⟨some i, j, hk, hj⟩
  · rintro ⟨a, j, hk, hj⟩
    exact ⟨_, hk, h.nameOf_eq hes hj⟩

theorem names_runs (h : Filed E db es) (hes : Journal E allowed es) (fuel : ℕ)
    {ks : List AccountKey}
    (hks : ∀ k ∈ ks, (db.getLastTransferIndex k).isSome) :
    Runs (trace E) (ks.mapM fun k => DbM.getNameForIndex E (fuel + 1) k.typeName) db
      (ks.map fun k => db.nameOf E k.typeName) [] := by
  refine Runs.mapM ?_ db ((trace E).nil db)
  rw [List.forall₂_map_right_iff, List.forall₂_same]
  intro k hk db' hl
  obtain ⟨_, S, _, j, -, hj, rfl⟩ := h.names_of_key hes (hks k hk)
  rw [h.nameOf_eq hes hj]
  apply (h.of_leads_nil hl).getNameForIndex_runs
  rw [(h.indexed.leads_nil hl).1]
  exact hj

theorem ownContents_runs (h : Filed E db es) (hes : Journal E allowed es)
    (hi : (db.ledger E).index A = some i) :
    Runs (trace E) (DbM.ownContents E (fuel + 1) A) db
      ((db.ownKeys i).map fun k => db.nameOf E k.typeName) [] := by
  obtain ⟨p, hp⟩ := h.indexed.ownContents_eq (fuel + 1) A
  have hle : (AccountKey.cmp (.first (some i)) (.first (Index.next (some i)))).isLE := by
    rw [AccountKey.first_isLE, AccountKey.first, Index.next, Index.cmp_some, Nat.isLE_compare]
    exact Nat.le_succ i
  rw [hi, Lib.walkRange_eq (AccountKey.keys_increasing _) hle] at hp
  have hkeys : ∀ k ∈ db.ownKeys i, ((db.moved p).getLastTransferIndex k).isSome := by
    intro k hk
    rw [Database.getLastTransferIndex_moved]
    exact Database.isSome_of_mem_layer (List.mem_of_mem_filter hk)
  obtain ⟨db', hrun, q, hq⟩ := (h.moved p).names_runs hes fuel hkeys
  simp only [Database.nameOf_moved] at hrun
  refine ⟨db', hp.trans hrun, q, ?_⟩
  rw [hq, Database.moved_moved]

theorem ownContents_unknown (h : Filed E db es) (hes : Journal E allowed es) (hA : A ∉ db.names) :
    (db.Meets A → Runs (trace E) (DbM.ownContents E fuel A) db [] []) ∧
      (¬ db.Meets A → outcome (DbM.ownContents E fuel A db) = .error .outOfBounds) := by
  have hnone : (db.ledger E).index A = none := by
    rw [← Option.not_isSome_iff_eq_none, h.index_isSome_iff hes]
    exact hA
  have hbehind : ∀ k ∈ db.layer.lastTransferMap.keys,
      ¬ (AccountKey.cmp (.first none) k).isLE := by
    intro k hk
    obtain ⟨_, _, i, j, -, -, rfl⟩ := h.names_of_key hes (Database.isSome_of_mem_layer hk)
    rw [AccountKey.first_isLE, Index.cmp_none]
    decide
  obtain ⟨p, hp⟩ := h.indexed.ownContents_eq fuel A
  rw [hnone, Lib.walkRange_of_lt hbehind] at hp
  simp only [AccountKey.isLE_least_iff] at hp
  have hmeets : db.Meets A ↔ ∀ k ∈ db.layer.lastTransferMap.keys, k = .first (some 0) :=
    or_iff_right hA
  rw [hmeets]
  constructor
  · intro hall
    rw [if_pos hall] at hp
    exact ⟨_, hp, p, rfl⟩
  · intro hall
    rw [if_neg hall] at hp
    rw [hp]
    rfl

theorem index_ne_succ (h : Filed E db es) (hE : LongRecords E)
    (hi : (db.ledger E).index A = some i) : (db.ledger E).index S ≠ some (i + 1) := by
  intro hj
  rw [h.ledger] at hi hj
  obtain ⟨k, hk⟩ := h.mem_define hi
  obtain ⟨k', hk'⟩ := h.mem_define hj
  have hlong := hE ⟨.defineName A k, i⟩
  have hgap := add_length_le_of_mem_postRecords hk hk' (Nat.lt_succ_self i)
  simp only at hgap
  omega

theorem ne_first_succ (h : Filed E db es) (hes : Journal E allowed es) (hE : LongRecords E)
    (hi : (db.ledger E).index A = some i)
    (hk : (db.getLastTransferIndex k).isSome) : k ≠ .first (some (i + 1)) := by
  rintro rfl
  obtain ⟨B, _, j, _, hj, -, heq⟩ := h.names_of_key hes hk
  simp only [AccountKey.first, AccountKey.mk.injEq] at heq
  rw [← heq.1] at hj
  exact h.index_ne_succ hE hi hj

theorem mem_ownKeys (h : Filed E db es) (hes : Journal E allowed es) (hE : LongRecords E)
    (hi : (db.ledger E).index A = some i) : k ∈ db.ownKeys i ↔
      k ∈ db.layer.lastTransferMap.keys ∧ k.accountName = some i := by
  rw [Database.ownKeys, List.mem_filter, AccountKey.within_iff]
  apply and_congr_right
  intro hk
  exact or_iff_left (h.ne_first_succ hes hE hi (Database.isSome_of_mem_layer hk))

theorem ownContents_spec (h : Filed E db es) (hes : Journal E allowed es) (fuel : ℕ)
    (hdb : db.Meets A) :
    ∃ own, Runs (trace E) (DbM.ownContents E (fuel + 1) A) db own [] ∧
      (A ∉ db.names → own = []) ∧ (LongRecords E → ∀ S, S ∈ own ↔ ∃ i j,
        (db.ledger E).index A = some i ∧
        (db.ledger E).index S = some j ∧
          (⟨some i, some j⟩ : AccountKey) ∈ db.layer.lastTransferMap.keys) := by
  cases hi : (db.ledger E).index A with
  | none =>
    have hA : A ∉ db.names := by
      rw [← h.index_isSome_iff hes, hi]
      simp
    refine ⟨[], (h.ownContents_unknown hes hA).1 hdb, fun _ => rfl, fun _ S => ?_⟩
    simp
  | some i =>
    refine ⟨_, h.ownContents_runs hes hi, fun hA => ?_, fun hE S => ?_⟩
    · rw [← h.index_isSome_iff hes, hi] at hA
      exact absurd rfl hA
    have hvisible : ∀ k ∈ db.ownKeys i, (db.getLastTransferIndex k).isSome := fun k hk =>
      Database.isSome_of_mem_layer (List.mem_of_mem_filter hk)
    rw [h.mem_map_nameOf hes hvisible]
    simp only [h.mem_ownKeys hes hE hi]
    constructor
    · rintro ⟨a, j, ⟨hk, rfl⟩, hj⟩
      exact ⟨i, j, rfl, hj, hk⟩
    · rintro ⟨i', j, ⟨rfl⟩, hj, hk⟩
      exact ⟨some i, j, ⟨hk, rfl⟩, hj⟩

theorem scanContents_runs (h : Filed E db es) (hes : Journal E allowed es) (fuel : ℕ) {a : Index}
    {ks rest : List AccountKey} (hks : ∀ k ∈ ks, (db.getLastTransferIndex k).isSome)
    (ha : ∀ k ∈ ks, k.accountName = a) (hrest : ∀ k ∈ rest, k.accountName ≠ a)
    (names : List Name) :
    Runs (trace E) (DbM.scanContents E (fuel + 1) a (ks ++ rest) names) db
      (if rest = [] then names ++ ks.map fun k => db.nameOf E k.typeName
        else sortUnique compare (names ++ ks.map fun k => db.nameOf E k.typeName)) [] := by
  induction ks generalizing db names with
  | nil =>
    rw [List.nil_append, List.map_nil, List.append_nil]
    cases rest with
    | nil => exact Runs.pure
    | cons k rest =>
      rw [DbM.scanContents, if_neg (hrest k List.mem_cons_self), if_neg (List.cons_ne_nil k rest)]
      exact Runs.pure
  | cons k ks ih =>
    obtain ⟨_, S, _, j, -, hj, rfl⟩ := h.names_of_key hes (hks k List.mem_cons_self)
    rw [List.cons_append, DbM.scanContents, if_pos (ha _ List.mem_cons_self)]
    apply (h.getNameForIndex_runs _ hj).bind_nil
    rintro _ ⟨p, rfl⟩
    have hnext := ih (h.moved p)
      (fun k hk => by
        rw [Database.getLastTransferIndex_moved]
        exact hks k (List.mem_cons_of_mem _ hk))
      (fun k hk => ha k (List.mem_cons_of_mem _ hk)) (names ++ [S])
    simp only [Database.nameOf_moved] at hnext
    rw [List.map_cons, h.nameOf_eq hes hj]
    rw [List.append_assoc, List.singleton_append] at hnext
    exact hnext

theorem deals_iff (h : Filed E db es) : db.Deals E A S ↔
    ∃ i j, (db.ledger E).index A = some i ∧ (db.ledger E).index S = some j ∧
      (db.getLastTransferIndex ⟨some i, some j⟩).isSome := by
  have hrecords : ∀ a, (∃ r ∈ db.log E, a ∈ r.data.accounts) ↔
      (db.getLastTransferIndex a).isSome := by
    intro a
    rw [h.getLastTransferIndex_eq, Option.isSome_map, Ledger.account_posts_isSome, h.log,
      or_iff_right (by simp [Ledger.empty])]
    have hdata : (postRecords E 0 es).map StateRecord.data = es.map Posting.record :=
      map_data_postRecords 0
    have hmem : ∀ d, d ∈ (postRecords E 0 es).map StateRecord.data ↔
        d ∈ es.map Posting.record :=
      fun d => by rw [hdata]
    simp only [List.mem_map] at hmem
    constructor
    · rintro ⟨r, hr, ha⟩
      obtain ⟨e, he, heq⟩ := (hmem _).mp ⟨r, hr, rfl⟩
      exact ⟨e, he, by rwa [heq]⟩
    · rintro ⟨e, he, ha⟩
      obtain ⟨r, hr, heq⟩ := (hmem _).mpr ⟨e, he, rfl⟩
      exact ⟨r, hr, by rwa [heq]⟩
  simp only [Database.Deals, hrecords]

theorem getAccountContents_file {d : StateDatabase} (h : Filed E (.file d) es)
    (hes : Journal E allowed es) {own : List Name}
    (hown : Runs (trace E) (DbM.ownContents E (fuel + 1) A) (.file d) own []) :
    Runs (trace E) (DbM.getAccountContents E (fuel + 1) A) (.file d)
      (if d.keysBehind (((Database.file d).ledger E).index A) = [] then
        sortUnique compare own ++ (d.keysOf (((Database.file d).ledger E).index A)).map
          fun k => (Database.file d).nameOf E k.typeName
      else sortUnique compare (sortUnique compare own ++
        (d.keysOf (((Database.file d).ledger E).index A)).map
          fun k => (Database.file d).nameOf E k.typeName)) [] := by
  change Runs (trace E) (DbM.ownContents E (fuel + 1) A >>= fun names =>
    DbM.getNameIndex E A >>= fun ak =>
      DbM.scanContents E (fuel + 1) ak (d.search ak) (sortUnique compare names)) (.file d) _ []
  apply hown.bind_nil
  intro d₁ h₁
  obtain ⟨hv₁, hdb₁⟩ := h.indexed.leads_nil h₁
  apply (DbM.getNameIndex_runs hdb₁ A).bind_nil
  intro d₂ h₂
  obtain ⟨p, rfl⟩ : (trace E).leads [] (.file d) d₂ := (trace E).append h₁ h₂
  rw [hv₁, StateDatabase.search_eq]
  have hkeys : ∀ k ∈ d.keysOf (((Database.file d).ledger E).index A),
      (((Database.file d).moved p).getLastTransferIndex k).isSome := by
    intro k hk
    rw [Database.getLastTransferIndex_moved]
    exact Database.getLastTransferIndex_file_isSome.mpr (Or.inr (List.mem_of_mem_filter hk))
  have hbehind : ∀ k ∈ d.keysBehind (((Database.file d).ledger E).index A),
      k.accountName ≠ ((Database.file d).ledger E).index A :=
    fun _ => StateDatabase.accountName_of_mem_keysBehind
  have hscan := (h.moved p).scanContents_runs hes fuel hkeys
    (fun _ => StateDatabase.accountName_of_mem_keysOf) hbehind (sortUnique compare own)
  simp only [Database.nameOf_moved] at hscan
  exact hscan

theorem mem_names_of_account (h : Filed E db es) (hes : Journal E allowed es)
    {ks : List AccountKey} (hks : ∀ k ∈ ks, (db.getLastTransferIndex k).isSome) :
    S ∈ (ks.filter fun k => k.accountName = (db.ledger E).index A).map
        (fun k => db.nameOf E k.typeName) ↔
      ∃ i j, (db.ledger E).index A = some i ∧ (db.ledger E).index S = some j ∧
        (⟨some i, some j⟩ : AccountKey) ∈ ks := by
  rw [h.mem_map_nameOf hes fun k hk => hks k (List.mem_of_mem_filter hk)]
  simp only [List.mem_filter, decide_eq_true_iff]
  constructor
  · rintro ⟨a, j, ⟨hk, ha⟩, hj⟩
    obtain ⟨_, _, i, _, -, -, heq⟩ := h.names_of_key hes (hks _ hk)
    cases heq
    exact ⟨i, j, ha.symm, hj, hk⟩
  · rintro ⟨i, j, hi, hj, hk⟩
    exact ⟨some i, j, ⟨hk, hi.symm⟩, hj⟩

theorem mem_keysOf_names {d : StateDatabase} (h : Filed E (.file d) es)
    (hes : Journal E allowed es) :
    S ∈ (d.keysOf (((Database.file d).ledger E).index A)).map
        (fun k => (Database.file d).nameOf E k.typeName) ↔
      ∃ i j, ((Database.file d).ledger E).index A = some i ∧
        ((Database.file d).ledger E).index S = some j ∧
          (⟨some i, some j⟩ : AccountKey) ∈ d.mTransferDb.keys :=
  h.mem_names_of_account hes fun _ hk => Database.getLastTransferIndex_file_isSome.mpr (Or.inr hk)

theorem getAccountContents_file_spec {d : StateDatabase} (h : Filed E (.file d) es)
    (hes : Journal E allowed es) (hdb : (Database.file d).Meets A) :
    ∃ ns, Runs (trace E) (DbM.getAccountContents E (fuel + 1) A) (.file d) ns [] ∧
      (A ∉ (Database.file d).names → ns = []) ∧
      (LongRecords E → ∀ S, S ∈ ns ↔ (Database.file d).Deals E A S) := by
  obtain ⟨own, hown, hnil, hmem⟩ := h.ownContents_spec hes fuel hdb
  refine ⟨_, h.getAccountContents_file hes hown, fun hA => ?_, fun hE S => ?_⟩
  · have hnone : ((Database.file d).ledger E).index A = none := by
      rw [← Option.not_isSome_iff_eq_none, h.index_isSome_iff hes]
      exact hA
    have hfound : (d.keysOf (((Database.file d).ledger E).index A)).map
        (fun k => (Database.file d).nameOf E k.typeName) = [] := by
      apply List.eq_nil_iff_forall_not_mem.mpr
      intro S hS
      obtain ⟨i, -, hi, -⟩ := (h.mem_keysOf_names hes).mp hS
      rw [hnone] at hi
      cases hi
    rw [hfound, hnil hA]
    split <;> rfl
  · rw [h.deals_iff]
    have hfound := h.mem_keysOf_names hes (A := A) (S := S)
    have hboth : S ∈ (if d.keysBehind (((Database.file d).ledger E).index A) = [] then
        sortUnique compare own ++ (d.keysOf (((Database.file d).ledger E).index A)).map
          (fun k => (Database.file d).nameOf E k.typeName)
        else sortUnique compare (sortUnique compare own ++
          (d.keysOf (((Database.file d).ledger E).index A)).map
            fun k => (Database.file d).nameOf E k.typeName)) ↔ S ∈ own ∨
          S ∈ (d.keysOf (((Database.file d).ledger E).index A)).map
            fun k => (Database.file d).nameOf E k.typeName := by
      split <;> simp only [Lib.mem_sortUnique, List.mem_append]
    rw [hboth, hmem hE, hfound]
    simp only [Database.getLastTransferIndex_file_isSome]
    constructor
    · rintro (⟨i, j, hi, hj, hk⟩ | ⟨i, j, hi, hj, hk⟩)
      · exact ⟨i, j, hi, hj, Or.inl hk⟩
      · exact ⟨i, j, hi, hj, Or.inr hk⟩
    · rintro ⟨i, j, hi, hj, hk | hk⟩
      · exact Or.inl ⟨i, j, hi, hj, hk⟩
      · exact Or.inr ⟨i, j, hi, hj, hk⟩

theorem deals_trx_iff {base : Database} {l : Layer} {fs : List Posting}
    (h : Filed E (.trx base l) es) (hes : Journal E allowed es) (hbase : Filed E base fs)
    (hfs : Journal E allowed fs) : (Database.trx base l).Deals E A S ↔ base.Deals E A S ∨
      ∃ i j, ((Database.trx base l).ledger E).index A = some i ∧
        ((Database.trx base l).ledger E).index S = some j ∧
          (⟨some i, some j⟩ : AccountKey) ∈ l.lastTransferMap.keys := by
  have hprefix : base.flat <+: (Database.trx base l).flat := ⟨l.localChanges, rfl⟩
  have hindex := fun {n i} => hbase.index_of_prefix h hprefix (n := n) (i := i)
  have hinj := fun {m n i} => (h.wellFormed hes).coherent.index_inj (m := m) (n := n) (i := i)
  rw [h.deals_iff, hbase.deals_iff]
  simp only [Database.getLastTransferIndex_trx_isSome]
  constructor
  · rintro ⟨i, j, hi, hj, hk | hk⟩
    · exact Or.inr ⟨i, j, hi, hj, hk⟩
    · left
      obtain ⟨B, T, i', j', hB, hT, heq⟩ := hbase.names_of_key hfs hk
      cases heq
      rw [hinj hi (hindex hB), hinj hj (hindex hT)]
      exact ⟨i, j, hB, hT, hk⟩
  · rintro (⟨i, j, hi, hj, hk⟩ | ⟨i, j, hi, hj, hk⟩)
    · exact ⟨i, j, hindex hi, hindex hj, Or.inr hk⟩
    · exact ⟨i, j, hi, hj, Or.inl hk⟩

end Filed

namespace Database

variable {E : Externals} {allowed : List StateRecord → Index → Prop} {db base : Database}
  {l : Layer} {A S : Name} {fuel : ℕ}

theorem Throughout.of_ne_null {P : Database → Prop} (h : db.Throughout P) (hdb : db ≠ .null) :
    P db := by
  cases db with
  | null => exact absurd rfl hdb
  | file d => exact h _ List.mem_cons_self
  | trx base l => exact h _ List.mem_cons_self

theorem getAccountContents_trx {ns : List Name} {base' : Database}
    (h : DbM.getAccountContents E fuel A base = .ok ns base') :
    DbM.getAccountContents E fuel A (.trx base l) =
      (DbM.ownContents E fuel A >>= fun own => pure (sortUnique compare (ns ++ own)))
        (.trx base' l) := by
  rw [DbM.getAccountContents, h]

theorem not_deals_null : ¬ Database.null.Deals E A S := by
  rintro ⟨i, -, hi, -⟩
  cases hi

theorem getAccountContents_runs (hall : db.Throughout (Traded E allowed))
    (hallowed : StartsAllowed allowed) (fuel : ℕ) (hdb : db.Throughout (Meets A)) :
    ∃ ns, Runs (trace E) (DbM.getAccountContents E (fuel + 1) A) db ns [] ∧
      (A ∉ db.names → ns = []) ∧ (LongRecords E → ∀ S, S ∈ ns ↔ db.Deals E A S) := by
  induction db with
  | null =>
    refine ⟨[], ⟨.null, rfl, (trace E).nil _⟩, fun _ => rfl, fun _ S => ?_⟩
    exact iff_of_false List.not_mem_nil not_deals_null
  | file d =>
    have htop : Traded E allowed (.file d) := hall.of_ne_null (by simp)
    obtain ⟨es, h, hes⟩ := htop.journal hallowed
    exact h.getAccountContents_file_spec hes (hdb.of_ne_null (by simp))
  | trx base l ih =>
    obtain ⟨htop, hbelow⟩ := throughout_trx.mp hall
    obtain ⟨hmeets, hmeetsBelow⟩ := throughout_trx.mp hdb
    obtain ⟨es, h, hes⟩ := htop.journal hallowed
    obtain ⟨fs, hbase, hfs⟩ := (hbelow.of_ne_null h.founded.1.live).journal hallowed
    obtain ⟨ns, ⟨base', hrun, p, rfl⟩, hnil, hmem⟩ := ih hbelow hmeetsBelow
    rw [posts_nil] at hrun
    have hmeets' : Meets A ((Database.trx base l).moved p) := by
      unfold Meets at hmeets ⊢
      rwa [names_moved, layer_moved]
    obtain ⟨own, hown, hownNil, hownMem⟩ := (h.moved p).ownContents_spec hes fuel hmeets'
    rw [names_moved] at hownNil
    rw [ledger_moved, layer_moved] at hownMem
    have hquery := getAccountContents_trx (l := l) hrun
    obtain ⟨db', hrest, q, rfl⟩ :=
      hown.bind_pure (f := fun own => pure (sortUnique compare (ns ++ own))) rfl
    refine ⟨_, ⟨_, hquery.trans hrest, q, by rw [moved_moved]⟩, fun hA =>
      ?_, fun hE S => ?_⟩
    · have hbelowA : A ∉ base.names := fun hbelowA => hA (mem_names_trx.mpr (Or.inr hbelowA))
      rw [hnil hbelowA, hownNil hA]
      rfl
    · rw [Lib.mem_sortUnique, List.mem_append, hmem hE, hownMem hE,
        h.deals_trx_iff hes hbase hfs]
      rfl

theorem getAccountContents_error (hall : db.Throughout (Traded E allowed))
    (hallowed : StartsAllowed allowed) (hdb : ¬ db.Throughout (Meets A)) :
    outcome (DbM.getAccountContents E (fuel + 1) A db) = .error .outOfBounds := by
  induction db with
  | null => exact absurd (List.forall_mem_nil _) hdb
  | file d =>
    have htop : Traded E allowed (.file d) := hall.of_ne_null (by simp)
    obtain ⟨es, h, hes⟩ := htop.journal hallowed
    have hmeets : ¬ (Database.file d).Meets A := fun hmeets =>
      hdb (List.forall_mem_singleton.mpr hmeets)
    exact Lib.outcome_bind_error
      ((h.ownContents_unknown hes fun hA => hmeets (Or.inl hA)).2 hmeets)
  | trx base l ih =>
    obtain ⟨htop, hbelow⟩ := throughout_trx.mp hall
    obtain ⟨es, h, hes⟩ := htop.journal hallowed
    by_cases hmeetsBelow : base.Throughout (Meets A)
    · have hmeets : ¬ (Database.trx base l).Meets A := fun hmeets =>
        hdb (throughout_trx.mpr ⟨hmeets, hmeetsBelow⟩)
      obtain ⟨ns, ⟨base', hrun, p, rfl⟩, -⟩ :=
        getAccountContents_runs hbelow hallowed fuel hmeetsBelow
      rw [posts_nil] at hrun
      have hmeets' : ¬ ((Database.trx base l).moved p).Meets A := by
        unfold Meets at hmeets ⊢
        rwa [names_moved, layer_moved]
      rw [getAccountContents_trx hrun]
      exact Lib.outcome_bind_error
        (((h.moved p).ownContents_unknown hes fun hA => hmeets' (Or.inl hA)).2 hmeets')
    · have hbase := ih hbelow hmeetsBelow
      rw [DbM.getAccountContents]
      cases hrun : DbM.getAccountContents E (fuel + 1) A base with
      | ok ns base' =>
        rw [hrun] at hbase
        cases hbase
      | error e base' =>
        rw [hrun] at hbase
        cases hbase
        rfl

end Database

end Gpm
