import Gpm.Lib.Slice
import Gpm.StateDb.TrxFile

namespace Gpm

open Lib

structure Reach (hole : ℕ → Prop) (size pos len n : ℕ) : Prop where
  le : n ≤ min len (size - pos)
  clear : ∀ i < n, ¬ hole (pos + i)
  ends : n = min len (size - pos) ∨ hole (pos + n)

def unwritten (hole : ℕ → Prop) (pos len : ℕ) (i : ℕ) : Prop :=
  hole i ∧ ∀ j, pos ≤ j → j < pos + len → j / pageSize ≠ i / pageSize

theorem unwritten_zero (hole : ℕ → Prop) (pos : ℕ) : unwritten hole pos 0 = hole := by
  funext i
  exact propext (and_iff_left fun _ hle hlt => absurd hle (Nat.not_le.mpr hlt))

theorem unwritten_add (hole : ℕ → Prop) (pos m n : ℕ) :
    unwritten (unwritten hole pos m) (pos + m) n = unwritten hole pos (m + n) := by
  funext i
  apply propext
  constructor
  · rintro ⟨⟨hhole, hfst⟩, hsnd⟩
    refine ⟨hhole, fun j hle hlt => ?_⟩
    by_cases hj : j < pos + m
    · exact hfst j hle hj
    · exact hsnd j (Nat.not_lt.mp hj) (by omega)
  · rintro ⟨hhole, hall⟩
    exact ⟨⟨hhole, fun j hle hlt => hall j hle (by omega)⟩, fun j hle hlt =>
      hall j (by omega) (by omega)⟩

theorem unwritten_page {hole : ℕ → Prop} {pos len i : ℕ} (hlen : 0 < len)
    (hfits : pos % pageSize + len ≤ pageSize) :
    unwritten hole pos len i ↔ hole i ∧ i / pageSize ≠ pos / pageSize := by
  apply and_congr_right'
  constructor
  · exact fun hall heq => hall pos (Nat.le_refl _) (Nat.lt_add_of_pos_right hlen) heq.symm
  · intro hne j hle hlt heq
    unfold pageSize at *
    omega

structure Lawful {σ : Type} (m : AbstractFile σ) (inv : σ → Prop) (byte : σ → ℕ → UInt8)
    (hole : σ → ℕ → Prop) : Prop where
  pos_seek : ∀ p s, m.pos (m.seek p s) = p
  seek_seek : ∀ p q s, m.seek p (m.seek q s) = m.seek p s
  seek_pos : ∀ s, m.seek (m.pos s) s = s
  size_seek : ∀ p s, m.size (m.seek p s) = m.size s
  byte_seek : ∀ p s, byte (m.seek p s) = byte s
  hole_seek : ∀ p s, hole (m.seek p s) = hole s
  inv_seek : ∀ p s, inv s → inv (m.seek p s)
  byte_end : ∀ s i, inv s → m.size s ≤ i → byte s i = 0
  byte_hole : ∀ s i j, inv s → hole s i → i ≤ j → j / pageSize =
    i / pageSize → byte s j = 0
  read : ∀ len s, inv s → ∃ n, Reach (hole s) (m.size s) (m.pos s) len n ∧
    m.read len s = (slice (byte s) (m.pos s) n, m.seek (m.pos s + n) s)
  write_nil : ∀ s, m.write [] s = (0, s)
  write : ∀ data s, inv s → data ≠ [] → ∃ s', m.write data s =
    (data.length, s') ∧ inv s' ∧
    m.pos s' = m.pos s + data.length ∧ m.size s' = max (m.size s) (m.pos s + data.length) ∧
    byte s' = overwrite (byte s) (m.pos s) data ∧
    hole s' = unwritten (hole s) (m.pos s) data.length

namespace Reach

variable {hole : ℕ → Prop} {size pos len n a : ℕ}

theorem add (h : Reach hole size (pos + a) (len - a) n) (ha : a ≤ min len (size - pos))
    (hclear : ∀ i < a, ¬ hole (pos + i)) : Reach hole size pos len (a + n) := by
  constructor
  case le =>
    have hle := h.le
    omega
  case clear =>
    intro i hi
    by_cases hia : i < a
    · exact hclear i hia
    · have hrest := h.clear (i - a) (by omega)
      rwa [Nat.add_assoc, Nat.add_sub_cancel' (Nat.not_lt.mp hia)] at hrest
  case ends =>
    obtain heq | hhole := h.ends
    · exact Or.inl (by omega)
    · rw [Nat.add_assoc] at hhole
      exact Or.inr hhole

theorem zero (h : min len (size - pos) = 0) : Reach hole size pos len 0 :=
  ⟨Nat.zero_le _, fun _ hi => absurd hi (Nat.not_lt_zero _), Or.inl h.symm⟩

theorem eq_iff (h : Reach hole size pos len n) :
    n = min len (size - pos) ↔ ∀ i < min len (size - pos), ¬ hole (pos + i) := by
  constructor
  · rintro rfl
    exact h.clear
  · intro hclear
    obtain heq | hhole := h.ends
    · exact heq
    · by_contra hne
      exact hclear n (Nat.lt_of_le_of_ne h.le hne) hhole

theorem unique {n' : ℕ} (h : Reach hole size pos len n) (h' : Reach hole size pos len n') :
    n = n' := by
  have hle := h.le
  have hle' := h'.le
  rcases Nat.lt_trichotomy n n' with hlt | heq | hgt
  · exact (h.ends.resolve_left (by omega) |> h'.clear n hlt).elim
  · exact heq
  · exact (h'.ends.resolve_left (by omega) |> h.clear n' hgt).elim

end Reach

namespace File

def byte (f : File) (i : ℕ) : UInt8 := f.content.getD i 0

theorem byte_write (data : List UInt8) (f : File) :
    (f.write data).byte = overwrite f.byte f.pos data := by
  funext i
  exact getD_splice f.content data f.pos i 0

theorem size_write {data : List UInt8} (hne : data ≠ []) (f : File) :
    (f.write data).size = max f.size (f.pos + data.length) := by
  have hpos := List.length_pos_iff.mpr hne
  simp only [write, size, List.length_append, List.length_take, List.length_replicate,
    List.length_drop]
  omega

theorem read_eq (len : ℕ) (f : File) : f.read len =
    (slice f.byte f.pos (min len (f.size - f.pos)),
      f.seek (f.pos + min len (f.size - f.pos))) := by
  have hlength : ((f.content.drop f.pos).take len).length = min len (f.size - f.pos) := by
    rw [List.length_take, List.length_drop, size]
  rw [read, hlength, Prod.mk.injEq]
  refine ⟨?_, rfl⟩
  by_cases hpos : f.pos ≤ f.size
  · have hle : f.pos + min len (f.size - f.pos) ≤ f.content.length := by
      rw [size] at hpos ⊢
      omega
    have hslice : _ = slice f.byte f.pos _ := take_drop_eq_slice (d := 0) hle
    rw [← hslice, size, ← List.length_drop, ← List.take_eq_take_min]
  · have hnil : min len (f.size - f.pos) = 0 := by omega
    rw [hnil, slice_zero, List.drop_eq_nil_of_le (Nat.le_of_not_le hpos), List.take_nil]

theorem lawful : Lawful abstractFile (fun _ => True) byte fun _ _ => False := by
  constructor
  case pos_seek => exact fun _ _ => rfl
  case seek_seek => exact fun _ _ _ => rfl
  case seek_pos => exact fun _ => rfl
  case size_seek => exact fun _ _ => rfl
  case byte_seek => exact fun _ _ => rfl
  case hole_seek => exact fun _ _ => rfl
  case inv_seek => exact fun _ _ h => h
  case byte_end => exact fun f i _ h => List.getD_eq_default _ _ h
  case byte_hole => exact fun _ _ _ _ h => h.elim
  case read =>
    intro len f _
    exact ⟨_, ⟨Nat.le_refl _, fun _ _ => id, Or.inl rfl⟩, f.read_eq len⟩
  case write_nil => exact fun _ => rfl
  case write =>
    intro data f _ hne
    refine ⟨f.write data, congrArg (Prod.mk data.length) (if_neg hne), trivial, rfl,
      f.size_write hne, f.byte_write data, ?_⟩
    funext i
    exact propext ⟨False.elim, And.left⟩

end File

namespace FileTransaction

def byte (b : ℕ → UInt8) (t : FileTransaction) (i : ℕ) : UInt8 :=
  match t.mDirtyPages[i / pageSize]? with
  | some page => page.getD (i % pageSize) 0
  | none => b i

def clean (t : FileTransaction) (i : ℕ) : Prop := t.mDirtyPages[i / pageSize]? = none

def Hole (size : ℕ) (hole : ℕ → Prop) (t : FileTransaction) (i : ℕ) : Prop :=
  t.mDirtyPages[i / pageSize]? = none ∧ (size ≤ i ∨ hole i)

structure Sound (size : ℕ) (t : FileTransaction) : Prop where
  size_le : size ≤ t.mSize
  length : ∀ (p : ℕ) (page : List UInt8), t.mDirtyPages[p]? = some page →
    page.length = pageSize
  start : ∀ (p : ℕ) (page : List UInt8), t.mDirtyPages[p]? = some page →
    p * pageSize < t.mSize
  beyond : ∀ (p : ℕ) (page : List UInt8) (j : ℕ), t.mDirtyPages[p]? = some page →
    t.mSize ≤ p * pageSize + j → page.getD j 0 = 0
  last : size < t.mSize → (t.mDirtyPages[(t.mSize - 1) / pageSize]?).isSome

variable {b : ℕ → UInt8} {t : FileTransaction} {size : ℕ} {page : List UInt8} {i p : ℕ}

theorem byte_some (h : t.mDirtyPages[i / pageSize]? = some page) :
    t.byte b i = page.getD (i % pageSize) 0 := by rw [byte, h]

theorem byte_none (h : t.mDirtyPages[i / pageSize]? = none) : t.byte b i = b i := by rw [byte, h]

theorem page_place (p : ℕ) {j : ℕ} (hj : j < pageSize) :
    (p * pageSize + j) / pageSize = p ∧ (p * pageSize + j) % pageSize = j := by
  unfold pageSize at *
  omega

theorem Sound.byte_end (h : t.Sound size) (hb : ∀ i, size ≤ i → b i = 0)
    (hi : t.mSize ≤ i) :
    t.byte b i = 0 := by
  cases hpage : t.mDirtyPages[i / pageSize]? with
  | none =>
    rw [byte_none hpage]
    exact hb i (Nat.le_trans h.size_le hi)
  | some page =>
    rw [byte_some hpage]
    apply h.beyond _ _ _ hpage
    rwa [Nat.div_add_mod']

def put (len : ℕ) (page : List UInt8) (t : FileTransaction) : FileTransaction where
  mPos := t.mPos + len
  mSize := max t.mSize (t.mPos + len)
  mDirtyPages := t.mDirtyPages.insert (t.mPos / pageSize) page

section Put

variable {data : List UInt8}
  (hfits : t.mPos % pageSize + data.length ≤ pageSize)
  (hpage : ∀ j < pageSize, page.getD j 0 =
    overwrite (t.byte b) t.mPos data (t.mPos / pageSize * pageSize + j))

include hfits in
theorem clean_put (hne : data ≠ []) :
    (t.put data.length page).clean = unwritten t.clean t.mPos data.length := by
  funext i
  apply propext
  rw [unwritten_page (List.length_pos_iff.mpr hne) hfits]
  simp only [clean, put, Std.ExtTreeMap.getElem?_insert, Std.LawfulEqCmp.compare_eq_iff_eq]
  by_cases hq : t.mPos / pageSize = i / pageSize
  · rw [if_pos hq]
    exact iff_of_false (Option.some_ne_none _) fun hclean => hclean.2 hq.symm
  · rw [if_neg hq]
    exact (and_iff_left (Ne.symm hq)).symm

include hfits hpage

theorem byte_put : (t.put data.length page).byte b = overwrite (t.byte b) t.mPos data := by
  funext i
  have hget : (t.put data.length page).mDirtyPages[i / pageSize]? =
      if t.mPos / pageSize = i / pageSize then some page else t.mDirtyPages[i / pageSize]? := by
    simp only [put, Std.ExtTreeMap.getElem?_insert, Std.LawfulEqCmp.compare_eq_iff_eq]
  by_cases hq : t.mPos / pageSize = i / pageSize
  · rw [if_pos hq] at hget
    rw [byte_some hget, hpage _ (Nat.mod_lt _ (by decide)), hq, Nat.div_add_mod']
  · rw [if_neg hq] at hget
    have hout : i < t.mPos ∨ t.mPos + data.length ≤ i := by
      unfold pageSize at *
      omega
    have hsame : (t.put data.length page).byte b i = t.byte b i := by rw [byte, hget, byte]
    rw [hsame]
    cases hout with
    | inl hlt => exact (overwrite_of_lt hlt).symm
    | inr hle => exact (overwrite_of_le hle).symm

theorem Sound.put (h : t.Sound size) (hb : ∀ i, size ≤ i → b i = 0) (hne : data ≠ [])
    (hlength : page.length = pageSize) : (t.put data.length page).Sound size := by
  have hlen := List.length_pos_iff.mpr hne
  have hget : ∀ p, (t.put data.length page).mDirtyPages[p]? =
      if t.mPos / pageSize = p then some page else t.mDirtyPages[p]? := by
    intro p
    simp only [FileTransaction.put, Std.ExtTreeMap.getElem?_insert,
      Std.LawfulEqCmp.compare_eq_iff_eq]
  have hsize : (t.put data.length page).mSize = max t.mSize (t.mPos + data.length) := rfl
  constructor
  case size_le => exact Nat.le_trans h.size_le (Nat.le_max_left _ _)
  case length =>
    intro p page' hp
    rw [hget] at hp
    split at hp
    · rw [← Option.some.inj hp]
      exact hlength
    · exact h.length p page' hp
  case start =>
    intro p page' hp
    rw [hget] at hp
    rw [hsize]
    split at hp
    · rename_i hq
      rw [← hq]
      unfold pageSize at *
      omega
    · exact Nat.lt_of_lt_of_le (h.start p page' hp) (Nat.le_max_left _ _)
  case beyond =>
    intro p page' j hp hj
    rw [hget] at hp
    rw [hsize] at hj
    split at hp
    · rename_i hq
      rw [← Option.some.inj hp]
      by_cases hin : j < pageSize
      · rw [hpage j hin, hq, overwrite_of_le (by omega)]
        exact h.byte_end hb (by omega)
      · exact List.getD_eq_default _ _ (by omega)
    · exact h.beyond p page' j hp (by omega)
  case last =>
    intro hlt
    rw [hget]
    split
    · rfl
    · rename_i hq
      rw [hsize] at hq hlt ⊢
      have hmax : max t.mSize (t.mPos + data.length) = t.mSize := by
        unfold pageSize at *
        omega
      rw [hmax] at hlt ⊢
      exact h.last hlt

end Put

end FileTransaction

namespace Lawful

variable {σ : Type} {m : AbstractFile σ} {inv : σ → Prop} {byte : σ → ℕ → UInt8}
  {hole : σ → ℕ → Prop} {s : σ} {t : FileTransaction}

theorem readAt (h : Lawful m inv byte hole) (hs : inv s) (pos len : ℕ) :
    ∃ n, Reach (hole s) (m.size s) pos len n ∧
      m.readAt pos len s = (slice (byte s) pos n, s) := by
  obtain ⟨n, hreach, hread⟩ := h.read len (m.seek pos s) (h.inv_seek pos s hs)
  rw [h.hole_seek, h.size_seek, h.pos_seek] at hreach
  rw [h.byte_seek, h.pos_seek, h.seek_seek] at hread
  refine ⟨n, hreach, ?_⟩
  rw [AbstractFile.readAt, hread, Prod.mk.injEq]
  exact ⟨rfl, by rw [h.seek_seek, h.seek_pos]⟩

theorem copied (h : Lawful m inv byte hole) (hs : inv s) {p n j : ℕ}
    (hreach : Reach (hole s) (m.size s) (p * pageSize) pageSize n) (hj : j < pageSize) :
    (slice (byte s) (p * pageSize) n ++ List.replicate (pageSize - n) 0).getD j 0 =
      byte s (p * pageSize + j) := by
  by_cases hjn : j < n
  · rw [List.getD_append _ _ _ _ (by rwa [length_slice]), List.getD_eq_getElem?_getD,
      getElem?_slice _ _ hjn, Option.getD_some]
  · have hle := hreach.le
    rw [List.getD_append_right _ _ _ _ (by rw [length_slice]; exact Nat.not_lt.mp hjn),
      List.getD_replicate _ (by rw [length_slice]; omega)]
    obtain heq | hhole := hreach.ends
    · exact (h.byte_end s _ hs (by omega)).symm
    · have hn : n < pageSize := Nat.lt_of_le_of_lt (Nat.not_lt.mp hjn) hj
      apply (h.byte_hole s _ _ hs hhole (by omega) _).symm
      rw [(FileTransaction.page_place p hj).1, (FileTransaction.page_place p hn).1]

theorem dirtyPage (h : Lawful m inv byte hole) (hs : inv s) (ht : t.Sound (m.size s)) (p : ℕ) :
    ∃ page t', m.dirtyPage p (s, t) = (page, (s, t')) ∧ page.length = pageSize ∧
      (∀ j < pageSize, page.getD j 0 = t.byte (byte s) (p * pageSize + j)) ∧
      t'.mPos = t.mPos ∧ t'.mSize = t.mSize ∧
      ∀ page', t'.mDirtyPages.insert p page' = t.mDirtyPages.insert p page' := by
  unfold AbstractFile.dirtyPage
  cases hpage : t.mDirtyPages[p]? with
  | some page =>
    refine ⟨page, t, rfl, ht.length p page hpage, fun j hj => ?_, rfl, rfl,
      fun _ => rfl⟩
    obtain ⟨hdiv, hmod⟩ := FileTransaction.page_place p hj
    rw [FileTransaction.byte_some (by rw [hdiv]; exact hpage), hmod]
  | none =>
    obtain ⟨n, hreach, hread⟩ := h.readAt hs (p * pageSize) pageSize
    refine ⟨_, { t with mDirtyPages := t.mDirtyPages.insert p _ }, by simp only [hread]; rfl, ?_,
      fun j hj => ?_, rfl, rfl, fun page' => ?_⟩
    · have hle := hreach.le
      rw [List.length_append, length_slice, List.length_replicate]
      omega
    · obtain ⟨hdiv, hmod⟩ := FileTransaction.page_place p hj
      rw [FileTransaction.byte_none (by rw [hdiv]; exact hpage), length_slice]
      exact h.copied hs hreach hj
    · apply Std.ExtTreeMap.ext_getElem?
      intro q
      simp only [Std.ExtTreeMap.getElem?_insert]
      split <;> rfl

theorem byte_end_transaction (h : Lawful m inv byte hole) (hs : inv s) (ht : t.Sound (m.size s))
    {i : ℕ} (hi : t.mSize ≤ i) : t.byte (byte s) i = 0 :=
  ht.byte_end (fun i hi => h.byte_end s i hs hi) hi

theorem writePage (h : Lawful m inv byte hole) (hs : inv s) (ht : t.Sound (m.size s))
    {data : List UInt8} (hne : data ≠ []) (hfits : t.mPos % pageSize + data.length ≤ pageSize) :
    ∃ t', m.writePage data (s, t) = (s, t') ∧ t'.Sound (m.size s) ∧
      t'.mPos = t.mPos + data.length ∧ t'.mSize = max t.mSize (t.mPos + data.length) ∧
      t'.byte (byte s) = overwrite (t.byte (byte s)) t.mPos data ∧
      t'.clean = unwritten t.clean t.mPos data.length := by
  obtain ⟨page, t₁, hdirty, hlength, hbytes, hpos, hsize, hinsert⟩ :=
    h.dirtyPage hs ht (t.mPos / pageSize)
  have hplace : t.mPos / pageSize * pageSize + t.mPos % pageSize = t.mPos := Nat.div_add_mod' _ _
  obtain ⟨page', hpage'⟩ : ∃ page', page' = page.take (t.mPos % pageSize) ++ data ++
    page.drop (t.mPos % pageSize + data.length) := ⟨_, rfl⟩
  have hlength' : page'.length = pageSize := by
    rw [hpage', List.length_append, List.length_append, List.length_take, List.length_drop]
    omega
  have hbytes' : ∀ j < pageSize, page'.getD j 0 =
      overwrite (t.byte (byte s)) t.mPos data (t.mPos / pageSize * pageSize + j) := by
    intro j hj
    rw [hpage', getD_splice_of_le (by omega)]
    by_cases hlt : j < t.mPos % pageSize
    · rw [overwrite_of_lt hlt, overwrite_of_lt (by omega), hbytes j hj]
    by_cases hmid : j < t.mPos % pageSize + data.length
    · rw [overwrite_of_mem (d := 0) (Nat.not_lt.mp hlt) hmid,
        overwrite_of_mem (d := 0) (by omega) (by omega)]
      congr 1
      omega
    · rw [overwrite_of_le (Nat.not_lt.mp hmid), overwrite_of_le (by omega), hbytes j hj]
  refine ⟨t.put data.length page', ?_, ht.put hfits hbytes' (fun i hi => h.byte_end s i hs hi)
    hne hlength', rfl, rfl, FileTransaction.byte_put hfits hbytes',
    FileTransaction.clean_put hfits hne⟩
  rw [AbstractFile.writePage]
  simp only [hdirty, hpos, hsize, hinsert, ← hpage', FileTransaction.put]

theorem writeLoop (h : Lawful m inv byte hole) (hs : inv s) {fuel : ℕ} (ht : t.Sound (m.size s))
    {data : List UInt8} (hne : data ≠ []) (hfuel : data.length ≤ fuel) :
    ∃ t', m.writeLoop fuel data (s, t) = (s, t') ∧ t'.Sound (m.size s) ∧
      t'.mPos = t.mPos + data.length ∧ t'.mSize = max t.mSize (t.mPos + data.length) ∧
      t'.byte (byte s) = overwrite (t.byte (byte s)) t.mPos data ∧
      t'.clean = unwritten t.clean t.mPos data.length := by
  induction fuel generalizing t data with
  | zero => exact absurd (List.length_eq_zero_iff.mp (Nat.le_zero.mp hfuel)) hne
  | succ fuel ih =>
    have hlen := List.length_pos_iff.mpr hne
    have hmod : t.mPos % pageSize < pageSize := Nat.mod_lt _ (by decide)
    obtain ⟨w, hw⟩ : ∃ w, w = min (pageSize - t.mPos % pageSize) data.length := ⟨_, rfl⟩
    have htake : (data.take w).length = w := List.length_take_of_le (by omega)
    have hdrop : (data.drop w).length = data.length - w := List.length_drop
    have hpart : data.take w ≠ [] := List.length_pos_iff.mp (by omega)
    obtain ⟨t₁, hpage, ht₁, hpos₁, hsize₁, hbyte₁, hclean₁⟩ :=
        h.writePage hs ht hpart (by omega)
    rw [htake] at hpos₁ hsize₁ hclean₁
    rw [AbstractFile.writeLoop, if_neg hne]
    simp only [← hw, hpage]
    by_cases hrest : data.drop w = []
    · have hall : w = data.length := by
        rw [hrest, List.length_nil] at hdrop
        omega
      have hdone : m.writeLoop fuel (data.drop w) (s, t₁) = (s, t₁) := by
        rw [hrest]
        cases fuel with
        | zero => rfl
        | succ fuel => rw [AbstractFile.writeLoop, if_pos rfl]
      rw [hall, List.take_length] at hbyte₁
      rw [hall] at hpos₁ hsize₁ hclean₁
      exact ⟨t₁, hdone, ht₁, hpos₁, hsize₁, hbyte₁, hclean₁⟩
    · obtain ⟨t₂, hloop, ht₂, hpos₂, hsize₂, hbyte₂, hclean₂⟩ :=
          ih ht₁ hrest (by omega)
      refine ⟨t₂, hloop, ht₂, ?_, ?_, ?_, ?_⟩
      · omega
      · omega
      · rw [hbyte₂, hbyte₁, hpos₁]
        exact overwrite_take_drop _ _ (by omega)
      · rw [hclean₂, hclean₁, hpos₁, unwritten_add, hdrop, Nat.add_sub_cancel' (by omega)]

theorem slice_page (ht : t.Sound (m.size s)) {page : List UInt8} {n : ℕ}
    (hpage : t.mDirtyPages[t.mPos / pageSize]? = some page)
    (hn : t.mPos % pageSize + n ≤ pageSize) :
    (page.drop (t.mPos % pageSize)).take n = slice (t.byte (byte s)) t.mPos n := by
  have hlength := ht.length _ _ hpage
  rw [take_drop_eq_slice (d := 0) (by omega)]
  apply List.ext_getElem?
  intro i
  by_cases hi : i < n
  · rw [getElem?_slice _ _ hi, getElem?_slice _ _ hi]
    have hplace : (t.mPos + i) / pageSize = t.mPos / pageSize ∧
        (t.mPos + i) % pageSize = t.mPos % pageSize + i := by
      unfold pageSize at *
      omega
    rw [FileTransaction.byte_some (by rw [hplace.1]; exact hpage), hplace.2]
  · rw [List.getElem?_eq_none (by rw [length_slice]; omega),
      List.getElem?_eq_none (by rw [length_slice]; omega)]

theorem clean_place {pos n i : ℕ} (hn : pos % pageSize + n ≤ pageSize) (hi : i < n) :
    (pos + i) / pageSize = pos / pageSize := by
  unfold pageSize at *
  omega

theorem readClean (h : Lawful m inv byte hole) (hs : inv s) {r : ℕ}
    (hpage : t.mDirtyPages[t.mPos / pageSize]? = none) (hin : t.mPos % pageSize + r ≤ pageSize) :
    ∃ n ≤ r, m.readAt t.mPos r s = (slice (t.byte (byte s)) t.mPos n, s) ∧
      (∀ i < n, ¬ t.Hole (m.size s) (hole s) (t.mPos + i)) ∧
      (n ≠ r → t.Hole (m.size s) (hole s) (t.mPos + n)) := by
  obtain ⟨n, hreach, hread⟩ := h.readAt hs t.mPos r
  have hle := hreach.le
  have hclean : ∀ i < r, t.mDirtyPages[(t.mPos + i) / pageSize]? = none := by
    intro i hi
    rw [clean_place hin hi, hpage]
  have hslice : slice (byte s) t.mPos n = slice (t.byte (byte s)) t.mPos n := by
    apply slice_congr
    intro i hi hi'
    have hplace := hclean (i - t.mPos) (by omega)
    rw [Nat.add_sub_cancel' hi] at hplace
    rw [FileTransaction.byte_none hplace]
  refine ⟨n, by omega, by rw [hread, hslice], ?_, ?_⟩
  · rintro i hi ⟨-, hshort | hhole⟩
    · omega
    · exact hreach.clear i hi hhole
  · intro hne
    refine ⟨hclean n (by omega), ?_⟩
    obtain heq | hhole := hreach.ends
    · exact Or.inl (by omega)
    · exact Or.inr hhole

theorem readLoop (h : Lawful m inv byte hole) (hs : inv s) {fuel len : ℕ}
    (ht : t.Sound (m.size s)) (hfuel : len ≤ fuel) :
    ∃ n, Reach (t.Hole (m.size s) (hole s)) t.mSize t.mPos len n ∧
      m.readLoop fuel len (s, t) =
        (slice (t.byte (byte s)) t.mPos n, (s, { t with mPos := t.mPos + n })) := by
  induction fuel generalizing t len with
  | zero =>
    obtain rfl := Nat.le_zero.mp hfuel
    exact ⟨0, .zero (Nat.zero_min _), rfl⟩
  | succ fuel ih =>
    rw [AbstractFile.readLoop]
    by_cases hdone : len = 0 ∨ t.mPos = t.mSize
    · rw [if_pos hdone]
      exact ⟨0, .zero (by omega), rfl⟩
    rw [if_neg hdone]
    dsimp only
    by_cases hend : t.mSize ≤ t.mPos + min (pageSize - t.mPos % pageSize) len ∧
      t.mSize ≤ t.mPos
    · rw [if_pos hend]
      exact ⟨0, .zero (by omega), rfl⟩
    rw [if_neg hend]
    have hmod : t.mPos % pageSize < pageSize := Nat.mod_lt _ (by decide)
    obtain ⟨r, hr⟩ : ∃ r, r = if t.mSize ≤ t.mPos +
        min (pageSize - t.mPos % pageSize) len then
        t.mSize - t.mPos else min (pageSize - t.mPos % pageSize) len := ⟨_, rfl⟩
    have hbounds : 0 < r ∧ r ≤ min len (t.mSize - t.mPos) ∧
        t.mPos % pageSize + r ≤ pageSize := by
      split at hr <;> omega
    obtain ⟨hpos, hle, hin⟩ := hbounds
    rw [← hr]
    have hrest : len - r ≤ fuel := by omega
    obtain ⟨n, hreach, hloop⟩ := ih (t := { t with mPos := t.mPos + r })
      ⟨ht.size_le, ht.length, ht.start, ht.beyond, ht.last⟩ hrest
    have hbyte : FileTransaction.byte (byte s) { t with mPos := t.mPos + r } =
        t.byte (byte s) := rfl
    have hhole : FileTransaction.Hole (m.size s) (hole s) { t with mPos := t.mPos + r } =
      t.Hole (m.size s) (hole s) := rfl
    rw [hhole] at hreach
    rw [hbyte] at hloop
    cases hpage : t.mDirtyPages[t.mPos / pageSize]? with
    | some page =>
      refine ⟨r + n, hreach.add hle fun i hi hat => ?_, ?_⟩
      · rw [FileTransaction.Hole, clean_place hin hi, hpage] at hat
        cases hat.1
      · simp only [hloop]
        rw [slice_page ht hpage hin, ← slice_add, Nat.add_assoc]
    | none =>
      obtain ⟨n₁, hle₁, hread₁, hfilled, hends⟩ := h.readClean hs hpage hin
      simp only [hread₁, length_slice]
      by_cases hshort : n₁ ≠ r
      · rw [if_pos hshort]
        exact ⟨n₁, ⟨by omega, hfilled, Or.inr (hends hshort)⟩, rfl⟩
      · obtain rfl : n₁ = r := not_not.mp hshort
        rw [if_neg hshort]
        refine ⟨n₁ + n, hreach.add hle hfilled, ?_⟩
        simp only [hloop]
        rw [← slice_add, Nat.add_assoc]

theorem fileTransaction (h : Lawful m inv byte hole) :
    Lawful m.fileTransaction (fun x => inv x.1 ∧ x.2.Sound (m.size x.1))
      (fun x => x.2.byte (byte x.1)) fun x => x.2.Hole (m.size x.1) (hole x.1) := by
  constructor
  case pos_seek => exact fun _ _ => rfl
  case seek_seek => exact fun _ _ _ => rfl
  case seek_pos => exact fun _ => rfl
  case size_seek => exact fun _ _ => rfl
  case byte_seek => exact fun _ _ => rfl
  case hole_seek => exact fun _ _ => rfl
  case inv_seek =>
    rintro p ⟨s, t⟩ ⟨hs, ht⟩
    exact ⟨hs, ht.size_le, ht.length, ht.start, ht.beyond, ht.last⟩
  case byte_end => exact fun x i hx hi => h.byte_end_transaction hx.1 hx.2 hi
  case byte_hole =>
    rintro ⟨s, t⟩ i j ⟨hs, ht⟩ ⟨hclean, hends⟩ hij hpage
    simp only
    rw [FileTransaction.byte_none (by rw [hpage]; exact hclean)]
    obtain hshort | hhole := hends
    · exact h.byte_end s j hs (Nat.le_trans hshort hij)
    · exact h.byte_hole s i j hs hhole hij hpage
  case read =>
    rintro len ⟨s, t⟩ ⟨hs, ht⟩
    exact h.readLoop hs ht (Nat.le_refl len)
  case write_nil => exact fun _ => rfl
  case write =>
    rintro data ⟨s, t⟩ ⟨hs, ht⟩ hne
    obtain ⟨t', hloop, ht', hpos, hsize, hbyte, hclean⟩ := h.writeLoop hs ht hne (Nat.le_refl _)
    refine ⟨(s, t'), congrArg (Prod.mk data.length) hloop, ⟨hs, ht'⟩, hpos,
      hsize, hbyte, ?_⟩
    funext i
    exact propext ((and_congr_left' (iff_of_eq (congrFun hclean i))).trans and_right_comm)

theorem commitPage (h : Lawful m inv byte hole) (hs : inv s) {mSize p : ℕ}
    {page data : List UInt8}
    (hlength : page.length = pageSize) (hstart : p * pageSize < mSize)
    (hdata : data = if (p + 1) * pageSize < mSize then page
      else page.take (mSize - p * pageSize)) :
    ∃ s', m.write data (m.seek (p * pageSize) s) = (data.length, s') ∧
      0 < data.length ∧ inv s' ∧
      m.size s' = max (m.size s) (min ((p + 1) * pageSize) mSize) ∧
      (∀ i, byte s' i = if i / pageSize = p ∧ i < mSize then page.getD (i % pageSize) 0
        else byte s i) ∧
      ∀ i, hole s' i ↔ hole s i ∧ i / pageSize ≠ p := by
  have hsucc : (p + 1) * pageSize = p * pageSize + pageSize := Nat.succ_mul _ _
  have hsize : 0 < pageSize := by decide
  have hlen : data.length = min pageSize (mSize - p * pageSize) := by
    rw [hdata]
    split
    · omega
    · rw [List.length_take]
      omega
  have hbytes : ∀ j < data.length, data.getD j 0 = page.getD j 0 := by
    intro j hj
    rw [hlen] at hj
    rw [hdata]
    split
    · rfl
    · rw [List.getD_eq_getElem?_getD, List.getElem?_take_of_lt (by omega),
        List.getD_eq_getElem?_getD]
  have hpos : 0 < data.length := by omega
  obtain ⟨s', hwrite, hs', -, hgrown, hbyte, hhole⟩ := h.write data (m.seek (p * pageSize) s)
    (h.inv_seek _ _ hs) (List.length_pos_iff.mp hpos)
  rw [h.pos_seek, h.size_seek] at hgrown
  rw [h.pos_seek, h.byte_seek] at hbyte
  rw [h.pos_seek, h.hole_seek] at hhole
  refine ⟨s', hwrite, hpos, hs', by omega, ?_, ?_⟩
  · intro i
    rw [hbyte]
    split
    · rename_i hi
      have hplace : p * pageSize ≤ i ∧ i < p * pageSize + data.length ∧
          i - p * pageSize = i % pageSize := by
        unfold pageSize at *
        omega
      rw [overwrite_of_mem (d := 0) hplace.1 hplace.2.1, hplace.2.2]
      apply hbytes
      omega
    · rename_i hi
      have hplace : i < p * pageSize ∨ p * pageSize + data.length ≤ i := by
        unfold pageSize at *
        omega
      cases hplace with
      | inl hlt => exact overwrite_of_lt hlt
      | inr hge => exact overwrite_of_le hge
  · intro i
    obtain ⟨hdiv, hmod⟩ := FileTransaction.page_place p hsize
    rw [Nat.add_zero] at hdiv hmod
    rw [hhole, unwritten_page hpos (by omega), hdiv]

theorem commitLoop (h : Lawful m inv byte hole) (hs : inv s) {mSize : ℕ}
    {l : List (ℕ × List UInt8)} (hl : ∀ e ∈ l, e.2.length = pageSize ∧
      e.1 * pageSize < mSize)
    (hkeys : (l.map Prod.fst).Nodup) :
    ∃ s', m.commitLoop mSize l s = (true, s') ∧ inv s' ∧ m.pos s' = m.pos s ∧
      m.size s ≤ m.size s' ∧ m.size s' ≤ max (m.size s) mSize ∧
      (∀ e ∈ l, min ((e.1 + 1) * pageSize) mSize ≤ m.size s') ∧
      (∀ e ∈ l, ∀ i, i / pageSize = e.1 → i < mSize →
        byte s' i = e.2.getD (i % pageSize) 0) ∧
      (∀ i, (∀ e ∈ l, i / pageSize ≠ e.1) ∨ mSize ≤ i → byte s' i = byte s i) ∧
      ∀ i, hole s' i ↔ hole s i ∧ ∀ e ∈ l, i / pageSize ≠ e.1 := by
  induction l generalizing s with
  | nil =>
    refine ⟨s, rfl, hs, rfl, Nat.le_refl _, Nat.le_max_left _ _, ?_, ?_, fun _ _ => rfl, ?_⟩
    · exact fun e he => absurd he List.not_mem_nil
    · exact fun e he => absurd he List.not_mem_nil
    · exact fun i => (and_iff_left fun e he => absurd he List.not_mem_nil).symm
  | cons e l ih =>
    obtain ⟨p, page⟩ := e
    obtain ⟨hlength, hstart⟩ := hl _ List.mem_cons_self
    rw [List.map_cons, List.nodup_cons] at hkeys
    obtain ⟨s₂, hwrite, hpos, hs₂, hsize₂, hbyte₂, hhole₂⟩ :=
      h.commitPage hs hlength hstart rfl
    obtain ⟨s', hloop, hs', hpos', hge, hle, hsizes, hin, hout, hhole⟩ :=
      ih (s := m.seek (m.pos s) s₂) (h.inv_seek _ _ hs₂)
        (fun e he => hl e (List.mem_cons_of_mem _ he)) hkeys.2
    rw [h.pos_seek] at hpos'
    rw [h.size_seek, hsize₂] at hge hle
    rw [h.byte_seek] at hout
    rw [h.hole_seek] at hhole
    refine ⟨s', ?_, hs', hpos', by omega, by omega, ?_, ?_, ?_, ?_⟩
    · rw [AbstractFile.commitLoop]
      simp only [hwrite]
      rw [if_neg (Nat.ne_of_gt hpos), hloop]
    · intro e he
      obtain rfl | he := List.mem_cons.mp he
      · exact Nat.le_trans (Nat.le_max_right _ _) hge
      · exact hsizes e he
    · intro e he i hi hlt
      obtain rfl | he := List.mem_cons.mp he
      · have hlast : ∀ e ∈ l, i / pageSize ≠ e.1 := by
          intro e he heq
          rw [hi] at heq
          exact hkeys.1 (List.mem_map.mpr ⟨e, he, heq.symm⟩)
        rw [hout i (Or.inl hlast), hbyte₂, if_pos ⟨hi, hlt⟩]
      · exact hin e he i hi hlt
    · intro i hi
      have hrest : (∀ e ∈ l, i / pageSize ≠ e.1) ∨ mSize ≤ i :=
        hi.imp_left fun hne e he => hne e (List.mem_cons_of_mem _ he)
      rw [hout i hrest, hbyte₂, if_neg]
      rintro ⟨hpage, hlt⟩
      obtain hne | hge := hi
      · exact hne _ List.mem_cons_self hpage
      · exact absurd hlt (Nat.not_lt.mpr hge)
    · intro i
      rw [hhole, hhole₂, List.forall_mem_cons, and_assoc]

theorem commit (h : Lawful m inv byte hole) (hs : inv s) (ht : t.Sound (m.size s)) :
    ∃ s', m.commit (s, t) = (true, (s', { t with mDirtyPages := ∅ })) ∧ inv s' ∧
      m.pos s' = m.pos s ∧ m.size s' = t.mSize ∧ byte s' = t.byte (byte s) ∧
      ∀ i, hole s' i ↔ hole s i ∧ t.clean i := by
  have hmem : ∀ e, e ∈ t.mDirtyPages.toList ↔ t.mDirtyPages[e.1]? = some e.2 := fun e =>
    Std.ExtTreeMap.mem_toList_iff_getElem?_eq_some
  have hkeys : (t.mDirtyPages.toList.map Prod.fst).Nodup := by
    rw [Std.ExtTreeMap.map_fst_toList_eq_keys]
    exact Std.ExtTreeMap.nodup_keys
  have hclean : ∀ i, t.clean i ↔ ∀ e ∈ t.mDirtyPages.toList, i / pageSize ≠ e.1 := by
    intro i
    rw [FileTransaction.clean, Option.eq_none_iff_forall_ne_some]
    constructor
    · rintro hnone ⟨p, page⟩ he rfl
      exact hnone page ((hmem _).mp he)
    · exact fun hne page hpage => hne (_, page) ((hmem _).mpr hpage) rfl
  have hpages : ∀ e ∈ t.mDirtyPages.toList, e.2.length = pageSize ∧
      e.1 * pageSize < t.mSize :=
    fun e he => ⟨ht.length _ _ ((hmem e).mp he), ht.start _ _ ((hmem e).mp he)⟩
  obtain ⟨s', hloop, hs', hpos, hge, hle, hsizes, hin, hout, hhole⟩ :=
      h.commitLoop hs hpages hkeys
  have hbase := ht.size_le
  refine ⟨s', ?_, hs', hpos, ?_, ?_, fun i => by rw [hhole, hclean]⟩
  · rw [AbstractFile.commit]
    simp only [hloop, if_true]
  · by_cases hgrown : m.size s < t.mSize
    · obtain ⟨page, hpage⟩ := Option.isSome_iff_exists.mp (ht.last hgrown)
      have hlast := hsizes (_, page) ((hmem _).mpr hpage)
      unfold pageSize at *
      omega
    · omega
  · funext i
    by_cases hi : t.mSize ≤ i
    · rw [hout i (Or.inr hi), h.byte_end_transaction hs ht hi]
      exact h.byte_end s i hs (Nat.le_trans hbase hi)
    · cases hpage : t.mDirtyPages[i / pageSize]? with
      | some page =>
        rw [hin (_, page) ((hmem _).mpr hpage) i rfl (Nat.not_le.mp hi),
          FileTransaction.byte_some hpage]
      | none =>
        rw [FileTransaction.byte_none hpage]
        exact hout i (Or.inl ((hclean i).mp hpage))

end Lawful

end Gpm
