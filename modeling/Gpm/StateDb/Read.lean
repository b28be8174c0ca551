import Gpm.StateDb.Apply
import Gpm.Lib.Stateful

namespace Gpm

open Lib.Format (value)

namespace File

def readPos (pos len : ℕ) (f : File) : ℕ :=
  if pos < f.size then pos + min len (f.size - pos) else f.pos

theorem readPos_le {f : File} (h : f.pos ≤ f.size) (pos len : ℕ) :
    f.readPos pos len ≤ f.size := by
  unfold readPos
  split <;> omega

theorem readPos_zero {len : ℕ} {f : File} (h : f.pos ≤ f.size) (hlen : f.size ≤ len) :
    f.readPos 0 len = f.size := by
  unfold readPos
  split <;> omega

end File

namespace StateDatabase

theorem read_eq {d : StateDatabase} {pos : ℕ} (h : pos ≤ d.size) (len : ℕ) :
    d.read pos len = .ok (((d.mFile.content ++ d.localChanges).drop pos).take len)
      { d with mFile := d.mFile.seek (d.mFile.readPos pos len) } := by
  simp only [size, File.size] at h
  cases Nat.lt_or_ge pos d.mFile.content.length with
  | inl hp =>
    have hlen : ((d.mFile.content.drop pos).take len).length =
        min len (d.mFile.content.length - pos) := by
      rw [List.length_take, List.length_drop]
    have hdrop : (d.mFile.content ++ d.localChanges).drop pos =
        d.mFile.content.drop pos ++ d.localChanges :=
      List.drop_append_of_le_length (Nat.le_of_lt hp)
    simp only [read, File.read, File.seek, File.readPos, File.size, hp, if_true, hlen]
    rw [hdrop, List.take_append, List.length_drop]
    split
    · rename_i hmore
      have hmin : min len (d.mFile.content.length - pos) = d.mFile.content.length - pos := by
        grind
      have hend : pos + (d.mFile.content.length - pos) - d.mFile.content.length = 0 := by grind
      simp only [hmin, hend, List.drop_zero, Nat.not_lt_zero, if_false]
    · rename_i hdone
      have hnil : d.localChanges.take (len - (d.mFile.content.length - pos)) = [] := by
        rw [List.take_eq_nil_iff]
        grind
      rw [hnil, List.append_nil]
  | inr hp =>
    have hp' : ¬ pos < d.mFile.content.length := Nat.not_lt.mpr hp
    have hoff : ¬ d.localChanges.length < pos - d.mFile.content.length := by grind
    have hdrop : (d.mFile.content ++ d.localChanges).drop pos =
        d.localChanges.drop (pos - d.mFile.content.length) := by
      rw [List.drop_append, List.drop_eq_nil_of_le hp, List.nil_append]
    simp only [read, File.readPos, File.size, hp', if_false, List.length_nil, Nat.sub_zero,
      Nat.add_zero, hoff, List.nil_append, hdrop, File.seek]
    split
    · rfl
    · rename_i hdone
      have hnil : (d.localChanges.drop (pos - d.mFile.content.length)).take len = [] := by
        rw [List.take_eq_nil_iff, List.drop_eq_nil_iff]
        grind
      rw [hnil]

theorem read_moves (d : StateDatabase) (pos len : ℕ) :
    ∃ p, (d.mFile.pos ≤ d.mFile.size → p ≤ d.mFile.size) ∧
      Lib.finalState (d.read pos len) = { d with mFile := d.mFile.seek p } := by
  have hseek : ∃ p, (d.mFile.pos ≤ d.mFile.size → p ≤ d.mFile.size) ∧
      (if pos < d.mFile.size then (d.mFile.seek pos).read len else ([], d.mFile)).2 =
        d.mFile.seek p := by
    split
    · rename_i hpos
      refine ⟨_, fun _ => ?_, rfl⟩
      simp only [File.size, File.seek, List.length_take, List.length_drop] at hpos ⊢
      omega
    · exact ⟨d.mFile.pos, id, rfl⟩
  obtain ⟨p, hle, hp⟩ := hseek
  refine ⟨p, hle, ?_⟩
  unfold read
  generalize (if pos < d.mFile.size then (d.mFile.seek pos).read len else ([], d.mFile)) = x
    at hp ⊢
  obtain ⟨r, f⟩ := x
  cases hp
  simp only
  split
  · split <;> rfl
  · rfl

def Seeks (d d' : StateDatabase) : Prop :=
  ∃ p, (d.mFile.pos ≤ d.mFile.size → p ≤ d.mFile.size) ∧
    d' = { d with mFile := d.mFile.seek p }

namespace Seeks

variable {d d' d'' : StateDatabase}

theorem refl (d : StateDatabase) : Seeks d d := ⟨d.mFile.pos, id, rfl⟩

theorem trans (h : Seeks d d') (h' : Seeks d' d'') : Seeks d d'' := by
  obtain ⟨p, hle, rfl⟩ := h
  obtain ⟨q, hle', rfl⟩ := h'
  exact ⟨q, fun hpos => hle' (hle hpos), rfl⟩

theorem of_readBytes (pos len : ℕ) : Lib.Keeps Seeks (readBytes pos len) :=
  fun d => d.read_moves pos len

theorem of_readData (pos len : ℕ) : Lib.Keeps Seeks (readData pos len) := by
  unfold readData
  split
  · exact Lib.Keeps.pure refl []
  · exact of_readBytes pos len

theorem of_getRecordFields (loc : ℕ) : Lib.Keeps Seeks (getRecordFields loc) := by
  unfold getRecordFields
  apply Lib.Keeps.bind (fun h h' => h.trans h') (of_readBytes loc 2)
  intro id
  split
  · exact Lib.Keeps.pure refl none
  apply Lib.Keeps.bind (fun h h' => h.trans h') (of_readBytes (loc + 2) 4)
  intro len
  split
  · exact Lib.Keeps.pure refl none
  apply Lib.Keeps.bind (fun h h' => h.trans h') (of_readData (loc + 2 + 4) (value len))
  intro data
  split
  · exact Lib.Keeps.pure refl none
  apply Lib.Keeps.bind (fun h h' => h.trans h') (of_readBytes (loc + 2 + 4 + value len) 8)
  intro previous
  split
  · exact Lib.Keeps.pure refl none
  · exact Lib.Keeps.pure refl _

end Seeks

theorem getRecord_moves (raw : Lib.Format StateRecord) (loc : Index) (d : StateDatabase) :
    Seeks d (Lib.finalState (d.getRecord raw loc)) := by
  cases loc with
  | none =>
    simp only [getRecord]
    split <;> exact Seeks.refl d
  | some i =>
    have hseeks := Seeks.of_getRecordFields i d
    simp only [getRecord]
    split
    · rename_i hd
      rwa [hd] at hseeks
    · rename_i hd
      rwa [hd] at hseeks

def log (d : StateDatabase) : List UInt8 := d.mFile.content ++ d.localChanges

theorem length_log (d : StateDatabase) : d.log.length = d.size := List.length_append

def Reads {α : Type} (log : List UInt8) (x : EStateM Fault StateDatabase α) (a : α) : Prop :=
  ∀ d, d.log = log → ∃ d', x d = .ok a d' ∧ d'.log = log

namespace Reads

variable {α β : Type} {log : List UInt8} {pos len : ℕ}

theorem pure (a : α) : Reads log (pure a) a := fun d hd => ⟨d, rfl, hd⟩

theorem bind {x : EStateM Fault StateDatabase α} {f : α → EStateM Fault StateDatabase β}
    {a : α} {b : β} (hx : Reads log x a) (hf : Reads log (f a) b) : Reads log (x >>= f) b := by
  intro d hd
  obtain ⟨d', hd', hlog⟩ := hx d hd
  rw [Lib.bind_ok hd']
  exact hf d' hlog

theorem readBytes (h : pos ≤ log.length) :
    Reads log (readBytes pos len) ((log.drop pos).take len) := by
  rintro d rfl
  rw [length_log] at h
  exact ⟨_, read_eq h len, rfl⟩

theorem readData (h : pos ≤ log.length) :
    Reads log (readData pos len) ((log.drop pos).take len) := by
  unfold StateDatabase.readData
  split
  · rename_i hzero
    rw [hzero, List.take_zero]
    exact pure []
  · exact readBytes h

theorem le_of_length {len : ℕ} (h : pos ≤ log.length)
    (hlen : ¬ ((log.drop pos).take len).length ≠ len) : pos + len ≤ log.length := by
  rw [not_not, List.length_take, List.length_drop] at hlen
  omega

theorem bind_exists {x : EStateM Fault StateDatabase α} {f : α → EStateM Fault StateDatabase β}
    {a : α} (hx : Reads log x a) (hf : ∃ b, Reads log (f a) b) :
    ∃ b, Reads log (x >>= f) b := by
  obtain ⟨b, hb⟩ := hf
  exact ⟨b, hx.bind hb⟩

theorem getRecordFields (h : pos ≤ log.length) : ∃ r, Reads log (getRecordFields pos) r := by
  unfold StateDatabase.getRecordFields
  apply (readBytes h).bind_exists
  split
  · exact ⟨none, pure none⟩
  have hlen := le_of_length h ‹_›
  apply (readBytes hlen).bind_exists
  split
  · exact ⟨none, pure none⟩
  have hdata := le_of_length hlen ‹_›
  apply (readData hdata).bind_exists
  split
  · exact ⟨none, pure none⟩
  have hprevious := le_of_length hdata ‹_›
  apply (readBytes hprevious).bind_exists
  split
  · exact ⟨none, pure none⟩
  · exact ⟨_, pure _⟩

end Reads

theorem getRecord_eq {d : StateDatabase} {i : ℕ} (h : i ≤ d.size)
    (raw : Lib.Format StateRecord) :
    ∃ d', Seeks d d' ∧ d.getRecord raw (some i) = .ok ((raw.unpack (d.log.drop i)).map fun r =>
      (r.1, (d.log.drop i).length -
        (raw.unpack (d.log.drop i)).elim 0 fun r => r.2.length)) d' := by
  obtain ⟨r, hr⟩ := Reads.getRecordFields (h.trans_eq d.length_log.symm)
  obtain ⟨d', hd', -⟩ := hr d rfl
  have hseeks := Seeks.of_getRecordFields i d
  rw [hd'] at hseeks
  refine ⟨d', hseeks, ?_⟩
  simp only [getRecord, hd']
  rfl

end StateDatabase

end Gpm
