import Gpm.StateDb.Read

namespace Gpm

namespace Database

def flat : Database → List UInt8
  | .null => []
  | .file d => d.mFile.content ++ d.localChanges
  | .trx base l => base.flat ++ l.localChanges

def moved (p : ℕ) : Database → Database
  | .null => .null
  | .file d => .file { d with mFile := d.mFile.seek p }
  | .trx base l => .trx (base.moved p) l

def InFile (db : Database) : Prop := db.root.mFile.pos ≤ db.root.mFile.size

def recordAt (raw : Lib.Format StateRecord) (i : ℕ) : Database → Option StateRecord
  | .null => none
  | .file d => (raw.unpack ((d.mFile.content ++ d.localChanges).drop i)).map Prod.fst
  | .trx base l =>
    if i < base.size then base.recordAt raw i
    else (raw.unpack (l.localChanges.drop (i - base.size))).map Prod.fst

def nameMap : Database → NameIndex
  | .null => ∅
  | .file d => d.mNameDb ∪ d.lastNameEditMap
  | .trx base l => base.nameMap ∪ l.lastNameEditMap

def names (db : Database) : List Name := db.nameMap.keys

theorem length_flat (db : Database) : db.flat.length = db.size := by
  induction db with
  | null => rfl
  | file d => simp [flat, size, StateDatabase.size, File.size]
  | trx base l ih => simp [flat, size, ih]

theorem nameMap_getElem? (db : Database) (n : Name) :
    db.nameMap[n]? = db.getLastNameEditIndex n := by
  induction db with
  | null => simp [nameMap, getLastNameEditIndex]
  | file d => exact Std.ExtTreeMap.getElem?_union
  | trx base l ih =>
    rw [nameMap, Std.ExtTreeMap.getElem?_union, ih]
    rfl

theorem mem_names {db : Database} {n : Name} :
    n ∈ db.names ↔ (db.getLastNameEditIndex n).isSome := by
  rw [names, Std.ExtTreeMap.mem_keys, Std.ExtTreeMap.mem_iff_isSome_getElem?, nameMap_getElem?]

theorem names_nodup (db : Database) : db.names.Nodup := by
  have h := Std.ExtTreeMap.distinct_keys (t := db.nameMap)
  apply h.imp
  rintro a b hab rfl
  exact hab Std.ReflCmp.compare_self

section Moved

variable (p : ℕ) (db : Database)

@[simp] theorem size_moved : (db.moved p).size = db.size := by
  induction db with
  | null => rfl
  | file d => rfl
  | trx base l ih => simp [moved, size, ih]

@[simp] theorem flat_moved : (db.moved p).flat = db.flat := by
  induction db with
  | null => rfl
  | file d => rfl
  | trx base l ih => simp [moved, flat, ih]

@[simp] theorem recordAt_moved (raw : Lib.Format StateRecord) (i : ℕ) :
    (db.moved p).recordAt raw i = db.recordAt raw i := by
  induction db with
  | null => rfl
  | file d => rfl
  | trx base l ih => simp [moved, recordAt, ih]

@[simp] theorem getLastNameEditIndex_moved (n : Name) :
    (db.moved p).getLastNameEditIndex n = db.getLastNameEditIndex n := by
  induction db with
  | null => rfl
  | file d => rfl
  | trx base l ih => simp [moved, getLastNameEditIndex, ih]

@[simp] theorem getLastTransferIndex_moved (a : AccountKey) :
    (db.moved p).getLastTransferIndex a = db.getLastTransferIndex a := by
  induction db with
  | null => rfl
  | file d => rfl
  | trx base l ih => simp [moved, getLastTransferIndex, ih]

@[simp] theorem nameMap_moved : (db.moved p).nameMap = db.nameMap := by
  induction db with
  | null => rfl
  | file d => rfl
  | trx base l ih => simp [moved, nameMap, ih]

@[simp] theorem names_moved : (db.moved p).names = db.names := by
  simp [names]

@[simp] theorem moved_moved (q : ℕ) : (db.moved p).moved q = db.moved q := by
  induction db with
  | null => rfl
  | file d => rfl
  | trx base l ih => simp [moved, ih]

@[simp] theorem moved_self : db.moved db.root.mFile.pos = db := by
  induction db with
  | null => rfl
  | file d => rfl
  | trx base l ih => simp [moved, root, ih]

theorem moved_modifyLayer (f : Layer → Layer) :
    (db.modifyLayer f).moved p = (db.moved p).modifyLayer f := by
  cases db <;> rfl

@[simp] theorem moved_eq_null : db.moved p = .null ↔ db = .null := by
  cases db <;> simp [moved]

@[simp] theorem size_root_moved : (db.moved p).root.mFile.size = db.root.mFile.size := by
  induction db with
  | null => rfl
  | file d => rfl
  | trx base l ih => exact ih

theorem inFile_moved {p : ℕ} {db : Database} (h : p ≤ db.root.mFile.size) :
    (db.moved p).InFile := by
  induction db with
  | null => exact Nat.zero_le _
  | file d => exact h
  | trx base l ih => exact ih h

theorem pos_root_moved {p : ℕ} {db : Database} (h : p = db.root.mFile.size) :
    (db.moved p).root.mFile.pos = db.root.mFile.size := by
  induction db with
  | null => rfl
  | file d => exact h
  | trx base l ih => exact ih h

theorem root_modifyLayer (f : Layer → Layer) : (db.modifyLayer f).root.mFile = db.root.mFile := by
  cases db <;> rfl

end Moved

theorem root_size_le (db : Database) : db.root.mFile.size ≤ db.size := by
  induction db with
  | null => exact Nat.le_refl 0
  | file d => exact Nat.le_add_right _ _
  | trx base l ih => exact Nat.le_trans ih (Nat.le_add_right _ _)

theorem read_eq {db : Database} {pos len : ℕ} (hpos : pos ≤ db.size) (hlen : len < 2 ^ 31) :
    db.read pos len = .ok ((db.flat.drop pos).take len)
      (db.moved (db.root.mFile.readPos pos len)) := by
  induction db generalizing pos len with
  | null => simp [read, flat, moved]
  | file d => simp only [read, StateDatabase.read_eq hpos, flat, moved, root]
  | trx base l ih =>
    have hl : ∀ off, off ≤ l.localChanges.length → ∀ k, k < 2 ^ 31 →
        l.read off k = .ok ((l.localChanges.drop off).take k) := by
      intro off hoff k hk
      have hmin : ¬ 2 ^ 31 ≤ min k (l.localChanges.length - off) := by grind
      simp only [Layer.read, if_neg (Nat.not_lt.mpr hoff), if_neg hmin]
      split
      · rename_i hnil
        simp [hnil]
      · rfl
    simp only [size] at hpos
    cases Nat.lt_or_ge pos base.size with
    | inl hp =>
      have hdrop : (base.flat ++ l.localChanges).drop pos = base.flat.drop pos ++ l.localChanges :=
        List.drop_append_of_le_length (by rw [length_flat]; exact Nat.le_of_lt hp)
      have hr : ((base.flat.drop pos).take len).length = min len (base.size - pos) := by
        rw [List.length_take, List.length_drop, length_flat]
      simp only [read, if_pos hp, ih (Nat.le_of_lt hp) hlen, hr, size_moved, flat, hdrop, moved,
        root]
      rw [List.take_append, List.length_drop, length_flat]
      split
      · rename_i hdone
        have : len - (base.size - pos) = 0 := by grind
        simp [this]
      · rename_i hmore
        have hmin : min len (base.size - pos) = base.size - pos := by grind
        have hend : pos + (base.size - pos) = base.size := by grind
        rw [hmin, hend, if_neg (Nat.lt_irrefl _), Nat.sub_self, hl 0 (Nat.zero_le _) _ (by grind)]
        simp only [List.drop_zero]
    | inr hp =>
      have hdrop : (base.flat ++ l.localChanges).drop pos =
          l.localChanges.drop (pos - base.size) := by
        rw [List.drop_append, List.drop_eq_nil_of_le (by rw [length_flat]; exact hp),
          List.nil_append, length_flat]
      have hroot : ¬ pos < base.root.mFile.size :=
        Nat.not_lt.mpr (Nat.le_trans base.root_size_le hp)
      simp only [read, if_neg (Nat.not_lt.mpr hp), hl (pos - base.size) (by grind) len hlen,
        flat, hdrop, moved, root]
      rw [File.readPos, if_neg hroot, moved_self]

def stack (d : StateDatabase) (ls : List Layer) : Database := ls.foldl .trx (.file d)

theorem flat_foldl (db : Database) (ls : List Layer) :
    (ls.foldl .trx db).flat = db.flat ++ ls.flatMap Layer.localChanges := by
  induction ls generalizing db with
  | nil => rw [List.foldl_nil, List.flatMap_nil, List.append_nil]
  | cons l ls ih => rw [List.foldl_cons, ih, flat, List.flatMap_cons, List.append_assoc]

theorem flat_stack (d : StateDatabase) (ls : List Layer) :
    (stack d ls).flat = d.mFile.content ++ d.localChanges ++ ls.flatMap Layer.localChanges :=
  flat_foldl _ ls

/-- A read of the top transaction copies what the file and all layers hold from there on. -/
theorem read_stack (d : StateDatabase) (ls : List Layer) {pos len : ℕ}
    (hpos : pos ≤ (stack d ls).size) (hlen : len < 2 ^ 31) :
    ∃ bytes db', (stack d ls).read pos len = .ok bytes db' ∧
      bytes.length = min len ((stack d ls).size - pos) ∧
      bytes = ((d.mFile.content ++ d.localChanges ++
        ls.flatMap Layer.localChanges).drop pos).take len := by
  refine ⟨_, _, read_eq hpos hlen, ?_, ?_⟩
  · rw [List.length_take, List.length_drop, length_flat]
  · rw [flat_stack]

theorem read_stack_straddling :
    ∃ bytes db', (stack { localChanges := [2], mFile := { content := [0, 1] } }
        [{ localChanges := [] }, { localChanges := [3, 4] }]).read 1 3 = .ok bytes db' ∧
      bytes.length = min 3 ((stack { localChanges := [2], mFile := { content := [0, 1] } }
        [{ localChanges := [] }, { localChanges := [3, 4] }]).size - 1) ∧
      bytes = (([0, 1] ++ [2] ++ [3, 4] : List UInt8).drop 1).take 3 :=
  read_stack _ _ (by decide) (by decide)

theorem read_moves (db : Database) (pos len : ℕ) :
    ∃ p, (db.InFile → p ≤ db.root.mFile.size) ∧
      Lib.finalState (db.read pos len) = db.moved p := by
  induction db generalizing pos len with
  | null => exact ⟨0, fun _ => Nat.zero_le _, rfl⟩
  | file d =>
    obtain ⟨p, hle, hp⟩ := d.read_moves pos len
    refine ⟨p, hle, ?_⟩
    simp only [read, moved, ← hp]
    split <;> simp_all [Lib.finalState]
  | trx base l ih =>
    simp only [read]
    split
    · obtain ⟨p, hle, hp⟩ := ih pos len
      refine ⟨p, hle, ?_⟩
      rw [moved, ← hp]
      split
      · simp_all [Lib.finalState]
      · rename_i hread
        rw [hread]
        split
        · rfl
        · split
          · rfl
          · split <;> rfl
    · refine ⟨base.root.mFile.pos, id, ?_⟩
      rw [moved, moved_self]
      split <;> rfl

theorem getRecord_moves (raw : Lib.Format StateRecord) (loc : Index) (db : Database) :
    ∃ p, (db.InFile → p ≤ db.root.mFile.size) ∧
      Lib.finalState (db.getRecord raw loc) = db.moved p := by
  induction db with
  | null => exact ⟨0, fun _ => Nat.zero_le _, rfl⟩
  | file d =>
    obtain ⟨p, hle, hp⟩ := d.getRecord_moves raw loc
    refine ⟨p, hle, ?_⟩
    simp only [getRecord, moved, ← hp]
    split <;> simp_all [Lib.finalState]
  | trx base l ih =>
    cases loc with
    | none => exact ⟨base.root.mFile.pos, id, by rw [moved, moved_self]; rfl⟩
    | some i =>
      simp only [getRecord]
      split
      · obtain ⟨p, hle, hp⟩ := ih
        refine ⟨p, hle, ?_⟩
        rw [moved, ← hp]
        split <;> simp_all [Lib.finalState]
      · refine ⟨base.root.mFile.pos, id, ?_⟩
        rw [moved, moved_self]
        split
        · rfl
        · split <;> rfl

variable {raw : Lib.Format StateRecord}

theorem unpack_nil (h : ∀ r, raw.pack r ≠ []) : raw.unpack [] = none := by
  cases hu : raw.unpack [] with
  | none => rfl
  | some x =>
    obtain ⟨q, hq, hx⟩ := raw.unpack_consumes hu
    have hnil : q = [] := (List.nil_eq_append_iff.mp hq).1
    have hx := hx (raw.pack x.1)
    rw [hnil, List.nil_append, ← List.append_nil (raw.pack x.1), raw.unpack_pack] at hx
    have := congrArg (fun o => (o.map Prod.snd).getD []) hx
    simp only [Option.map_some, Option.getD_some, List.append_nil] at this
    exact absurd this.symm (h x.1)

theorem recordAt_lt (h : ∀ r, raw.pack r ≠ []) {db : Database} {i : ℕ} {r : StateRecord}
    (hr : db.recordAt raw i = some r) : i < db.size := by
  induction db with
  | null => simp [recordAt] at hr
  | file d =>
    by_contra hlt
    have hdrop : (d.mFile.content ++ d.localChanges).drop i = [] :=
      List.drop_eq_nil_of_le (by simpa [size, StateDatabase.size, File.size] using hlt)
    simp [recordAt, hdrop, unpack_nil h] at hr
  | trx base l ih =>
    simp only [recordAt] at hr
    split at hr
    · exact Nat.lt_of_lt_of_le (ih hr) (Nat.le_add_right _ _)
    · rename_i hbase
      by_contra hlt
      have hdrop : l.localChanges.drop (i - base.size) = [] :=
        List.drop_eq_nil_of_le (by simp only [size] at hlt; grind)
      simp [hdrop, unpack_nil h] at hr

theorem recordAt_modifyLayer (h : ∀ r, raw.pack r ≠ []) {f : Layer → Layer}
    (hf : ∀ l, ∃ x, (f l).localChanges = l.localChanges ++ x) {db : Database} {i : ℕ}
    {r : StateRecord} (hr : db.recordAt raw i = some r) :
    (db.modifyLayer f).recordAt raw i = some r := by
  have hlt := recordAt_lt h hr
  have key : ∀ {bs : List UInt8} {i : ℕ} (x : List UInt8), i ≤ bs.length →
      (raw.unpack (bs.drop i)).map Prod.fst = some r →
        (raw.unpack ((bs ++ x).drop i)).map Prod.fst = some r := by
    intro bs i x hi hu
    obtain ⟨⟨r', rest⟩, hr', rfl⟩ := Option.map_eq_some_iff.mp hu
    rw [List.drop_append_of_le_length hi, raw.unpack_append hr']
    rfl
  cases db with
  | null => exact hr
  | file d =>
    obtain ⟨x, hx⟩ := hf d.toLayer
    simp only [modifyLayer, recordAt, hx, ← List.append_assoc] at hr ⊢
    apply key _ _ hr
    simpa [size, StateDatabase.size, File.size] using Nat.le_of_lt hlt
  | trx base l =>
    obtain ⟨x, hx⟩ := hf l
    simp only [modifyLayer, recordAt, hx] at hr ⊢
    split at hr
    · rename_i hbase
      rw [if_pos hbase]
      exact hr
    · rename_i hbase
      rw [if_neg hbase]
      apply key _ _ hr
      simp only [size] at hlt
      grind

theorem getRecord_of_recordAt (h : ∀ r, raw.pack r ≠ []) {db : Database} {i : ℕ}
    {r : StateRecord} (hr : db.recordAt raw i = some r) :
    ∃ p n, db.getRecord raw (some i) = .ok (some (r, n)) (db.moved p) := by
  have hlt := recordAt_lt h hr
  induction db with
  | null => simp [recordAt] at hr
  | file d =>
    obtain ⟨⟨r', rest⟩, hu, rfl⟩ := Option.map_eq_some_iff.mp hr
    obtain ⟨d', ⟨p, -, rfl⟩, hd'⟩ := StateDatabase.getRecord_eq (d := d)
        (Nat.le_of_lt hlt) raw
    rw [StateDatabase.log, hu] at hd'
    exact ⟨p, _, by rw [getRecord, hd']; rfl⟩
  | trx base l ih =>
    simp only [recordAt] at hr
    split at hr
    · rename_i hbase
      obtain ⟨p, n, hp⟩ := ih hr hbase
      refine ⟨p, n, ?_⟩
      simp only [getRecord, if_pos hbase, hp, moved]
    · rename_i hbase
      obtain ⟨⟨r', rest⟩, hu, rfl⟩ := Option.map_eq_some_iff.mp hr
      have hl : ¬ l.localChanges.length ≤ i - base.size := by simp only [size] at hlt; grind
      refine ⟨base.root.mFile.pos, (raw.pack r').length, ?_⟩
      simp only [getRecord, if_neg hbase, if_neg hl, hu, moved, moved_self]

end Database

end Gpm
