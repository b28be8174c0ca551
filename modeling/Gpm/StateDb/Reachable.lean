import Gpm.StateDb.Refinement

namespace Gpm

namespace Database

def Rooted : Database → Prop
  | .null => False
  | .file _ => True
  | .trx base _ => base.Rooted

def Blank : Database → Prop
  | .null => False
  | .file d => d.mFile.content = [] ∧ d.localChanges = [] ∧ d.lastTransferMap = ∅ ∧
      d.lastNameEditMap = ∅ ∧ d.mTransferDb = ∅ ∧ d.mNameDb = ∅
  | .trx base l => base.Blank ∧ l = {}

/-- The states `apply` leads to from an empty database, whatever it returns, with overlays
opened and merged at any time. -/
inductive Reachable (E : Externals) : Database → Prop
  | blank {db} : db.Blank → Reachable E db
  | apply {db db' trx genName b} : Reachable E db →
      DbM.apply E trx genName db = .ok b db' → Reachable E db'
  | overlay {db} : Reachable E db → Reachable E (.trx db {})
  | merge {base l} : Reachable E (.trx base l) → Reachable E (base.append l)

variable {E : Externals} {db base : Database} {l : Layer}

theorem blank_fresh : (Database.trx (.file {}) {}).Blank :=
    ⟨⟨rfl, rfl, rfl, rfl, rfl, rfl⟩, rfl⟩

theorem Rooted.ne_null (h : db.Rooted) : db ≠ .null := by
  rintro rfl
  exact h

theorem rooted_modifyLayer (f : Layer → Layer) : (db.modifyLayer f).Rooted ↔ db.Rooted := by
  cases db <;> rfl

theorem rooted_moved (p : ℕ) : (db.moved p).Rooted ↔ db.Rooted := by
  induction db with
  | null => rfl
  | file d => rfl
  | trx base l ih => exact ih

theorem rooted_posts (es : List Posting) : (db.posts E es).Rooted ↔ db.Rooted := by
  induction es generalizing db with
  | nil => rfl
  | cons e es ih => exact ih.trans (rooted_modifyLayer _)

theorem Blank.rooted (h : db.Blank) : db.Rooted := by
  induction db with
  | null => exact h
  | file d => trivial
  | trx base l ih => exact ih h.1

theorem Blank.flat (h : db.Blank) : db.flat = [] := by
  induction db with
  | null => exact h.elim
  | file d => simp [Database.flat, h.1, h.2.1]
  | trx base l ih => simp [Database.flat, ih h.1, h.2]

theorem Blank.size (h : db.Blank) : db.size = 0 := by
  rw [← length_flat, h.flat]
  rfl

theorem Blank.getLastNameEditIndex (h : db.Blank) (n : Name) :
    db.getLastNameEditIndex n = none := by
  induction db with
  | null => exact h.elim
  | file d =>
    obtain ⟨-, -, -, he, -, hn⟩ := h
    simp [Database.getLastNameEditIndex, he, hn]
  | trx base l ih => simp [Database.getLastNameEditIndex, ih h.1, h.2]

theorem Blank.getLastTransferIndex (h : db.Blank) (a : AccountKey) :
    db.getLastTransferIndex a = none := by
  induction db with
  | null => exact h.elim
  | file d =>
    obtain ⟨-, -, ht, -, hd, -⟩ := h
    simp [Database.getLastTransferIndex, ht, hd]
  | trx base l ih => simp [Database.getLastTransferIndex, ih h.1, h.2]

theorem Blank.ledger (h : db.Blank) : db.ledger E = Ledger.empty := by
  have hnames : db.names.toFinset = ∅ := by
    apply Finset.eq_empty_of_forall_notMem
    intro n hn
    rw [List.mem_toFinset, mem_names, h.getLastNameEditIndex] at hn
    cases hn
  simp [Database.ledger, Ledger.empty, hnames, h.size, h.getLastNameEditIndex,
    h.getLastTransferIndex]

theorem Blank.wellFormed (h : db.Blank) : WellFormed E db where
  live := h.rooted.ne_null
  account_isSome a ha := by
    rw [h.getLastTransferIndex] at ha
    cases ha
  coherent := by
    rw [h.ledger]
    exact Ledger.coherent_empty

section Merge

theorem flat_append (h : base ≠ .null) : (base.append l).flat = (Database.trx base l).flat := by
  cases base with
  | null => exact absurd rfl h
  | file d => simp [append, modifyLayer, Layer.append, flat]
  | trx base l => simp [append, modifyLayer, Layer.append, flat]

theorem size_append (h : base ≠ .null) : (base.append l).size = (Database.trx base l).size := by
  rw [← length_flat, flat_append h, length_flat]

theorem getLastNameEditIndex_append (h : base ≠ .null) (n : Name) :
    (base.append l).getLastNameEditIndex n = (Database.trx base l).getLastNameEditIndex n := by
  cases base with
  | null => exact absurd rfl h
  | file d =>
    simp [append, modifyLayer, Layer.append, getLastNameEditIndex,
      Std.ExtTreeMap.getElem?_union, Option.or_assoc]
  | trx base l =>
    simp [append, modifyLayer, Layer.append, getLastNameEditIndex,
      Std.ExtTreeMap.getElem?_union, Option.or_assoc]

theorem getLastTransferIndex_append (h : base ≠ .null) (a : AccountKey) :
    (base.append l).getLastTransferIndex a = (Database.trx base l).getLastTransferIndex a := by
  cases base with
  | null => exact absurd rfl h
  | file d =>
    simp [append, modifyLayer, Layer.append, getLastTransferIndex,
      Std.ExtTreeMap.getElem?_union, Option.or_assoc]
  | trx base l =>
    simp [append, modifyLayer, Layer.append, getLastTransferIndex,
      Std.ExtTreeMap.getElem?_union, Option.or_assoc]

theorem recordAt_append (h : base ≠ .null) {i : ℕ} {r : StateRecord}
    (hr : (Database.trx base l).recordAt E.raw i = some r) :
    (base.append l).recordAt E.raw i = some r := by
  have hold : base.recordAt E.raw i = some r → (base.append l).recordAt E.raw i = some r :=
    recordAt_modifyLayer E.pack_ne_nil (fun _ => ⟨_, rfl⟩)
  cases Nat.lt_or_ge i base.size with
  | inl hi =>
    rw [recordAt, if_pos hi] at hr
    exact hold hr
  | inr hi =>
    rw [recordAt, if_neg (Nat.not_lt.mpr hi)] at hr
    cases base with
    | null => exact absurd rfl h
    | file d =>
      have hd : (d.mFile.content ++ (d.localChanges ++ l.localChanges)).drop i =
          l.localChanges.drop (i - (Database.file d).size) := by
        rw [← List.append_assoc, List.drop_append, List.drop_eq_nil_of_le]
        · simp [size, StateDatabase.size, File.size]
        · simpa [size, StateDatabase.size, File.size] using hi
      simp only [append, modifyLayer, Layer.append, recordAt, hd]
      exact hr
    | trx b l' =>
      simp only [size] at hi hr
      have hb : ¬ i < b.size := Nat.not_lt.mpr (Nat.le_trans (Nat.le_add_right _ _) hi)
      have hd : (l'.localChanges ++ l.localChanges).drop (i - b.size) =
          l.localChanges.drop (i - (b.size + l'.localChanges.length)) := by
        rw [List.drop_append, List.drop_eq_nil_of_le (by grind), List.nil_append, Nat.sub_sub]
      simp only [append, modifyLayer, Layer.append, recordAt, if_neg hb, hd]
      exact hr

end Merge

end Database

open Database

variable {E : Externals} {db base : Database} {l : Layer}

/-- `db'` answers every lookup as `db` does and has the same log, cut into buffers as it may be;
a record of `db` is one of `db'` at the same position. -/
structure Carries (E : Externals) (db db' : Database) : Prop where
  live : db' ≠ .null
  flat : db'.flat = db.flat
  edit : ∀ n, db'.getLastNameEditIndex n = db.getLastNameEditIndex n
  transfer : ∀ a, db'.getLastTransferIndex a = db.getLastTransferIndex a
  record : ∀ i r, db.recordAt E.raw i = some r → db'.recordAt E.raw i = some r

namespace Carries

variable {db' db'' : Database}

theorem size (h : Carries E db db') : db'.size = db.size := by
  rw [← length_flat, h.flat, length_flat]

theorem trans (h : Carries E db db') (h' : Carries E db' db'') : Carries E db db'' where
  live := h'.live
  flat := h'.flat.trans h.flat
  edit n := (h'.edit n).trans (h.edit n)
  transfer a := (h'.transfer a).trans (h.transfer a)
  record i r hr := h'.record i r (h.record i r hr)

theorem moved (h : db ≠ .null) (p : ℕ) : Carries E db (db.moved p) where
  live := by simpa using h
  flat := flat_moved p db
  edit := getLastNameEditIndex_moved p db
  transfer := getLastTransferIndex_moved p db
  record i r hr := (recordAt_moved p db E.raw i).trans hr

theorem merge (h : base ≠ .null) : Carries E (.trx base l) (base.append l) where
  live := by
    cases base with
    | null => exact absurd rfl h
    | _ => simp [Database.append, modifyLayer]
  flat := flat_append h
  edit := getLastNameEditIndex_append h
  transfer := getLastTransferIndex_append h
  record _ _ hr := recordAt_append h hr

theorem overlay (db : Database) : Carries E db (.trx db {}) where
  live := by simp
  flat := by simp [Database.flat]
  edit n := by simp [getLastNameEditIndex]
  transfer a := by simp [getLastTransferIndex]
  record i r hr := by
    rw [recordAt, if_pos (recordAt_lt E.pack_ne_nil hr)]
    exact hr

theorem rebase (h : Carries E db db') (l : Layer) : Carries E (.trx db l) (.trx db' l) where
  live := by simp
  flat := by simp [Database.flat, h.flat]
  edit n := by simp [getLastNameEditIndex, h.edit]
  transfer a := by simp [getLastTransferIndex, h.transfer]
  record i r hr := by
    simp only [recordAt, h.size] at hr ⊢
    split at hr
    · rw [if_pos ‹_›]
      exact h.record i r hr
    · rw [if_neg ‹_›]
      exact hr

theorem ledger_indexed (h : Carries E db db') (hdb : Indexed E db) :
    db'.ledger E = db.ledger E := by
  have hnames : db'.names.toFinset = db.names.toFinset := by
    ext n
    rw [List.mem_toFinset, List.mem_toFinset, mem_names, mem_names, h.edit]
  simp only [Database.ledger, h.size, hnames, Ledger.mk.injEq, true_and]
  refine ⟨?_, ?_, ?_⟩
  · funext n
    exact h.edit n
  · funext n
    rw [h.edit]
    cases hdb.name_cases n with
    | inl hn => rw [hn.1]; rfl
    | inr hn =>
      obtain ⟨i, r, x, hi, hr, -, -⟩ := hn
      rw [hi, Option.bind_some, Option.bind_some, hr, h.record i r hr]
  · funext a
    rw [h.transfer]
    cases hdb.account_cases a with
    | inl hn => rw [hn.1]; rfl
    | inr hn =>
      obtain ⟨i, r, x, hi, hr, -, -⟩ := hn
      rw [hi, Option.bind_some, Option.bind_some, hr, h.record i r hr]

theorem indexed (h : Carries E db db') (hdb : Indexed E db) : Indexed E db' where
  live := h.live
  name_isSome n hn := by
    rw [h.ledger_indexed hdb]
    rw [h.edit] at hn
    exact hdb.name_isSome n hn
  account_isSome a ha := by
    rw [h.ledger_indexed hdb]
    rw [h.transfer] at ha
    exact hdb.account_isSome a ha

theorem ledger (h : Carries E db db') (hdb : WellFormed E db) : db'.ledger E = db.ledger E :=
  h.ledger_indexed hdb.indexed

theorem wellFormed (h : Carries E db db') (hdb : WellFormed E db) : WellFormed E db' where
  live := h.live
  account_isSome := (h.indexed hdb.indexed).account_isSome
  coherent := by
    rw [h.ledger hdb]
    exact hdb.coherent

end Carries

theorem WellFormed.overlay (h : WellFormed E db) : WellFormed E (.trx db {}) :=
  (Carries.overlay db).wellFormed h

theorem ledger_overlay (h : WellFormed E db) : (Database.trx db {}).ledger E = db.ledger E :=
  (Carries.overlay db).ledger h

theorem Database.Reachable.rooted (h : Reachable E db) : db.Rooted ∧ WellFormed E db := by
  induction h with
  | blank h => exact ⟨h.rooted, h.wellFormed⟩
  | @apply db db' trx genName b _ happ ih =>
    obtain ⟨s', hs, hl⟩ := DbM.apply_runs trx genName ih.2
    have hwf := ih.2.leads (Ledger.admitsAll_transaction ih.2.coherent) hl
    obtain ⟨p, hp⟩ := hl
    rw [happ] at hs
    cases hs
    exact ⟨by rw [hp, rooted_posts, rooted_moved]; exact ih.1, hwf.2⟩
  | overlay _ ih => exact ⟨ih.1, ih.2.overlay⟩
  | @merge base l _ ih =>
    have hbase : base.Rooted := ih.1
    exact ⟨(rooted_modifyLayer _).mpr hbase, (Carries.merge hbase.ne_null).wellFormed ih.2⟩

theorem Database.Reachable.wellFormed (h : Reachable E db) : WellFormed E db := h.rooted.2

end Gpm
