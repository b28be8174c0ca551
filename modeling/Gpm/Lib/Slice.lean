import Mathlib.Data.List.GetD
import Mathlib.Data.Nat.Notation

/-! Parts of an infinite sequence of bytes, or of anything else. -/

namespace Gpm.Lib

variable {α : Type*} {b b' : ℕ → α} {pos n m : ℕ}

def slice (b : ℕ → α) (pos n : ℕ) : List α := (List.range' pos n).map b

def overwrite (b : ℕ → α) (pos : ℕ) (data : List α) (i : ℕ) : α :=
  if pos ≤ i then data.getD (i - pos) (b i) else b i

@[simp] theorem length_slice (b : ℕ → α) (pos n : ℕ) : (slice b pos n).length = n := by
  rw [slice, List.length_map, List.length_range']

@[simp] theorem slice_zero (b : ℕ → α) (pos : ℕ) : slice b pos 0 = [] := rfl

theorem slice_add (b : ℕ → α) (pos m n : ℕ) :
    slice b pos (m + n) = slice b pos m ++ slice b (pos + m) n := by
  rw [slice, slice, slice, ← List.map_append, ← List.range'_append_1]

theorem slice_congr (h : ∀ i, pos ≤ i → i < pos + n → b i = b' i) :
    slice b pos n = slice b' pos n := by
  apply List.map_congr_left
  intro i hi
  obtain ⟨hle, hlt⟩ := List.mem_range'_1.mp hi
  exact h i hle hlt

theorem getElem?_slice (b : ℕ → α) (pos : ℕ) {n i : ℕ} (h : i < n) :
    (slice b pos n)[i]? = some (b (pos + i)) := by
  rw [slice, List.getElem?_map, List.getElem?_range' h, Nat.one_mul, Option.map_some]

theorem take_drop_eq_slice {l : List α} {d : α} (h : pos + n ≤ l.length) :
    (l.drop pos).take n = slice (fun i => l.getD i d) pos n := by
  apply List.ext_getElem?
  intro i
  rw [List.getElem?_take]
  split
  · rename_i hi
    rw [getElem?_slice _ _ hi, List.getElem?_drop, List.getElem?_eq_getElem (by omega),
      List.getD_eq_getElem _ _ (by omega)]
  · rename_i hi
    rw [List.getElem?_eq_none]
    rw [length_slice]
    exact Nat.not_lt.mp hi

theorem overwrite_of_le {data : List α} {i : ℕ} (h : pos + data.length ≤ i) :
    overwrite b pos data i = b i := by
  rw [overwrite]
  split
  · exact List.getD_eq_default _ _ (by omega)
  · rfl

theorem overwrite_of_lt {data : List α} {i : ℕ} (h : i < pos) : overwrite b pos data i = b i :=
  if_neg (Nat.not_le.mpr h)

theorem overwrite_of_mem {data : List α} {d : α} {i : ℕ} (h : pos ≤ i)
    (h' : i < pos + data.length) :
    overwrite b pos data i = data.getD (i - pos) d := by
  rw [overwrite, if_pos h, List.getD_eq_getElem _ _ (by omega), List.getD_eq_getElem _ _ (by omega)]

theorem overwrite_take_drop (b : ℕ → α) (pos : ℕ) {data : List α} {w : ℕ}
    (hw : w ≤ data.length) :
    overwrite (overwrite b pos (data.take w)) (pos + w) (data.drop w) = overwrite b pos data := by
  funext i
  have htake : (data.take w).length = w := List.length_take_of_le hw
  by_cases hlt : i < pos
  · rw [overwrite_of_lt (by omega), overwrite_of_lt hlt, overwrite_of_lt hlt]
  by_cases hmid : i < pos + w
  · rw [overwrite_of_lt hmid, overwrite_of_mem (d := b i) (by omega) (by omega),
      overwrite_of_mem (d := b i) (by omega) (by omega), List.getD_eq_getElem _ _ (by omega),
      List.getD_eq_getElem _ _ (by omega), List.getElem_take]
  by_cases hend : i < pos + data.length
  · have hdrop : (data.drop w).length = data.length - w := List.length_drop
    rw [overwrite_of_mem (d := b i) (by omega) (by omega),
      overwrite_of_mem (d := b i) (by omega) (by omega), List.getD_eq_getElem _ _ (by omega),
      List.getD_eq_getElem _ _ (by omega), List.getElem_drop]
    congr 1
    omega
  · rw [overwrite_of_le (by rw [List.length_drop]; omega), overwrite_of_le (by omega),
      overwrite_of_le (by omega)]

theorem getD_splice (l data : List α) (pos i : ℕ) (d : α) :
    (l.take pos ++ List.replicate (pos - l.length) d ++ data ++
      l.drop (pos + data.length)).getD i d =
      overwrite (fun i => l.getD i d) pos data i := by
  have hhead : (l.take pos ++ List.replicate (pos - l.length) d).length = pos := by
    rw [List.length_append, List.length_take, List.length_replicate]
    omega
  have htail : (l.take pos ++ List.replicate (pos - l.length) d ++ data).length =
      pos + data.length := by
    rw [List.length_append, hhead]
  by_cases hlt : i < pos
  · rw [overwrite_of_lt hlt, List.append_assoc,
      List.getD_append _ _ _ _ (by rw [hhead]; exact hlt)]
    by_cases hin : i < l.length
    · rw [List.getD_append _ _ _ _ (by rw [List.length_take]; omega)]
      simp only [List.getD_eq_getElem?_getD, List.getElem?_take_of_lt hlt]
    · rw [List.getD_append_right _ _ _ _ (by rw [List.length_take]; omega),
        List.getD_eq_default _ _ (Nat.not_lt.mp hin), List.getD_replicate _ (by
          rw [List.length_take]; omega)]
  by_cases hmid : i < pos + data.length
  · rw [overwrite_of_mem (d := d) (Nat.not_lt.mp hlt) hmid,
      List.getD_append _ _ _ _ (by rw [htail]; exact hmid),
      List.getD_append_right _ _ _ _ (by rw [hhead]; exact Nat.not_lt.mp hlt), hhead]
  · rw [overwrite_of_le (Nat.not_lt.mp hmid),
      List.getD_append_right _ _ _ _ (by rw [htail]; exact Nat.not_lt.mp hmid), htail]
    simp only [List.getD_eq_getElem?_getD, List.getElem?_drop]
    rw [Nat.add_sub_cancel' (Nat.not_lt.mp hmid)]

theorem getD_splice_of_le {l data : List α} {pos : ℕ} (h : pos ≤ l.length) (i : ℕ) (d : α) :
    (l.take pos ++ data ++ l.drop (pos + data.length)).getD i d =
      overwrite (fun i => l.getD i d) pos data i := by
  have hsplice := getD_splice l data pos i d
  rwa [Nat.sub_eq_zero_of_le h, List.replicate_zero, List.append_nil] at hsplice

end Gpm.Lib
