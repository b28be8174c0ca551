import Gpm.BlockChain.Validate

namespace Gpm

open Lib.Format (digits value)

section Target

theorem value_append_zeros (bs : List UInt8) (k : ℕ) :
    value (bs ++ List.replicate k 0) = value bs := by
  induction bs with
  | nil =>
    induction k with
    | zero => rfl
    | succ k ih => simpa [List.replicate_succ, value] using ih
  | cons b bs ih => rw [List.cons_append, value, value, ih]

theorem lt_pow_numBytes (n : ℕ) : n < 256 ^ numBytes n := by
  unfold numBytes
  split
  · simp_all
  · have hexp : n.log2 < 8 * (n.log2 / 8 + 1) := by omega
    calc n < 2 ^ (8 * (n.log2 / 8 + 1)) := (Nat.log2_lt ‹_›).mp hexp
      _ = 256 ^ (n.log2 / 8 + 1) := by rw [Nat.pow_mul]

theorem pow_le_of_lt_numBytes {n k : ℕ} (h : k < numBytes n) : 256 ^ k ≤ n := by
  unfold numBytes at h
  split at h
  · cases h
  · have hexp : 8 * k ≤ n.log2 := by omega
    calc 256 ^ k = 2 ^ (8 * k) := by rw [Nat.pow_mul]
      _ ≤ n := (Nat.le_log2 ‹_›).mp hexp

theorem length_packBigint (n : ℕ) : (packBigint n).length = numBytes n := by simp [packBigint]

theorem ofBigEndian_packBigint (n k : ℕ) :
    ofBigEndian (List.replicate k 0 ++ packBigint n) = n := by
  rw [ofBigEndian, List.reverse_append, packBigint, List.reverse_reverse, List.reverse_replicate,
    value_append_zeros, Lib.Format.value_digits _ _ (lt_pow_numBytes n)]

theorem getMaxHash_lt : getMaxHash < 256 ^ 18 := by decide +kernel

theorem scaleTarget_eq (max : Hashcode) :
    scaleTarget max = min (max * 257 / 256) getMaxHash := by
  have hcap : getMaxHash < 256 ^ 18 := getMaxHash_lt
  unfold scaleTarget
  simp only [length_packBigint, ofBigEndian_packBigint]
  by_cases hlen : numBytes (max * 257 / 256) ≤ 20
  · rw [if_pos hlen]
    split
    · rw [Nat.min_eq_right (Nat.le_of_lt ‹_›)]
    · rw [Nat.min_eq_left (Nat.not_lt.mp ‹_›)]
  · have hbig : 256 ^ 20 ≤ max * 257 / 256 := pow_le_of_lt_numBytes (Nat.not_le.mp hlen)
    have hover : getMaxHash < max := by
      apply Nat.lt_of_lt_of_le hcap
      apply Nat.le_of_mul_le_mul_right _ (Nat.succ_pos 256)
      calc 256 ^ 18 * 257 ≤ 256 ^ 20 := by decide
        _ ≤ max * 257 / 256 := hbig
        _ ≤ max * 257 := Nat.div_le_self _ _
    rw [if_neg hlen, if_pos hover, Nat.min_eq_right]
    exact Nat.le_trans (Nat.le_of_lt hcap) (Nat.le_trans (by decide) hbig)

end Target

section

variable (hashSha1 : Block → Hashcode)

theorem le_windowMax (bc : BlockChain) (i c : ℕ) (max : Hashcode) :
    max ≤ windowMax bc i c max := by
  induction i generalizing c max with
  | zero => exact Nat.le_refl max
  | succ i ih =>
    have hmax : max ≤ if max < (bc.getD (i + 1) default).prevBlock then
        (bc.getD (i + 1) default).prevBlock else max := by
      split
      · exact Nat.le_of_lt ‹_›
      · exact Nat.le_refl max
    unfold windowMax
    simp only
    split
    · exact hmax
    · exact Nat.le_trans hmax (ih _ _)

theorem le_calculateHashTarget_iff {bc : BlockChain} {i : ℕ} (hi : i < bc.length)
    (hlen : bc.length < 2 ^ 32) :
    hashSha1 bc[i] ≤ calculateHashTarget hashSha1 bc i ↔ hashSha1 bc[i] ≤ getMaxHash := by
  have hne : i ≠ 2 ^ 32 - 1 := by omega
  unfold calculateHashTarget
  simp only [if_neg hne]
  split
  · exact Iff.rfl
  · have hown := le_windowMax bc i 1 (hashSha1 bc[i])
    have hget : bc.getD i default = bc[i] := by simp [List.getD, hi]
    rw [scaleTarget_eq, hget, Nat.le_min]
    apply and_iff_right
    apply Nat.le_trans hown
    rw [Nat.le_div_iff_mul_le (by decide)]
    exact Nat.mul_le_mul_left _ (by decide)

def Checked : Hashcode → List Block → Prop
  | _, [] => True
  | prevHash, b :: bs =>
    secondsPerBlock ≤ b.utcTime.toNat ∧ b.prevBlock = prevHash ∧ hashSha1 b ≤ getMaxHash ∧
      Checked (hashSha1 b) bs

variable {hashSha1}

theorem checked_concat {prevHash : Hashcode} {bs : List Block} {b : Block} :
    Checked hashSha1 prevHash (bs ++ [b]) ↔ Checked hashSha1 prevHash bs ∧
      Checked hashSha1 ((bs.map hashSha1).getLastD prevHash) [b] := by
  induction bs generalizing prevHash with
  | nil => simp [Checked]
  | cons a bs ih =>
    have hlast : ((a :: bs).map hashSha1).getLastD prevHash =
        (bs.map hashSha1).getLastD (hashSha1 a) := by
      cases bs <;> rfl
    rw [hlast]
    simp only [List.cons_append, Checked, ih, and_assoc]

theorem validateFrom_iff {bc bs : BlockChain} {i : ℕ} {prevHash : Hashcode}
    (hlen : bc.length < 2 ^ 32) (hbs : bs = bc.drop i) :
    validateFrom hashSha1 bc 0 bs i prevHash ↔ Checked hashSha1 prevHash bs := by
  induction bs generalizing i prevHash with
  | nil => simp [validateFrom, Checked]
  | cons b bs ih =>
    have hi : i < bc.length := by
      apply Nat.lt_of_not_le
      intro hle
      rw [List.drop_eq_nil_of_le hle] at hbs
      cases hbs
    rw [List.drop_eq_getElem_cons hi] at hbs
    obtain ⟨rfl, hrest⟩ := List.cons.inj hbs
    have htarget := le_calculateHashTarget_iff hashSha1 hi hlen
    simp only [validateFrom, Checked, UInt32.sub_zero, Bool.if_false_left, Bool.and_eq_true,
      Bool.not_eq_true', decide_eq_false_iff_not, Nat.not_lt, ne_eq, not_not, htarget,
      ih hrest]

theorem validate_iff {bc : BlockChain} :
    validate hashSha1 bc ↔ bc.length < 2 ^ 32 ∧ Checked hashSha1 0 bc := by
  rw [validate, Bool.and_eq_true, decide_eq_true_iff]
  apply and_congr_right
  intro hlen
  exact validateFrom_iff hlen rfl

variable (hashSha1)

def precedingMax (bc : BlockChain) (i : ℕ) : Hashcode :=
  (((bc.take i).drop (i - blockWindow)).map hashSha1).max?.getD 0

def EnforcesWork (bc : BlockChain) : Prop :=
  ∀ i (hi : i < bc.length), 1 ≤ i →
    hashSha1 bc[i] ≤ min (precedingMax hashSha1 bc i * 257 / 256) getMaxHash

def Matched (bc : BlockChain) (i : ℕ) (h : Hashcode) : Prop :=
  ∃ j, ∃ hj : j < bc.length, j < i ∧ i ≤ j + blockWindow ∧
    h ≤ hashSha1 bc[j] * 257 / 256

variable {hashSha1}

theorem mem_window {bc : BlockChain} {i : ℕ} {b : Block} :
    b ∈ (bc.take i).drop (i - blockWindow) ↔
      ∃ j, ∃ hj : j < bc.length, j < i ∧ i ≤ j + blockWindow ∧ bc[j] = b := by
  rw [List.mem_iff_getElem]
  simp only [List.getElem_drop, List.getElem_take, List.length_drop, List.length_take]
  constructor
  · rintro ⟨k, hk, rfl⟩
    exact ⟨i - blockWindow + k, by omega, by omega, by omega, rfl⟩
  · rintro ⟨j, hj, hji, hij, rfl⟩
    refine ⟨j - (i - blockWindow), by omega, ?_⟩
    congr 1
    omega

theorem le_precedingMax_iff {bc : BlockChain} {i : ℕ} (hi : i < bc.length) (hpos : 1 ≤ i)
    (h : Hashcode) :
    h ≤ precedingMax hashSha1 bc i * 257 / 256 ↔ Matched hashSha1 bc i h := by
  have hmono : ∀ {a b : ℕ}, a ≤ b → a * 257 / 256 ≤ b * 257 / 256 := fun hab =>
    Nat.div_le_div_right (Nat.mul_le_mul_right 257 hab)
  constructor
  · intro hle
    have hlast : hashSha1 bc[i - 1] ∈ ((bc.take i).drop (i - blockWindow)).map hashSha1 :=
      List.mem_map_of_mem (mem_window.mpr ⟨i - 1, by omega, by omega, by
        unfold blockWindow; omega, rfl⟩)
    cases hmax : (((bc.take i).drop (i - blockWindow)).map hashSha1).max? with
    | none =>
      rw [List.max?_eq_none_iff.mp hmax] at hlast
      cases hlast
    | some m =>
      obtain ⟨b, hb, rfl⟩ := List.mem_map.mp (List.max?_mem hmax)
      obtain ⟨j, hj, hji, hij, rfl⟩ := mem_window.mp hb
      rw [precedingMax, hmax, Option.getD_some] at hle
      exact ⟨j, hj, hji, hij, hle⟩
  · rintro ⟨j, hj, hji, hij, hle⟩
    have hmem : hashSha1 bc[j] ∈ ((bc.take i).drop (i - blockWindow)).map hashSha1 :=
      List.mem_map_of_mem (mem_window.mpr ⟨j, hj, hji, hij, rfl⟩)
    exact Nat.le_trans hle (hmono (List.le_max?_getD_of_mem hmem))

theorem Checked.hash_le {prevHash : Hashcode} {bs : List Block} (h : Checked hashSha1 prevHash bs)
    {b : Block} (hb : b ∈ bs) : hashSha1 b ≤ getMaxHash := by
  induction bs generalizing prevHash with
  | nil => cases hb
  | cons a bs ih =>
    cases hb with
    | head => exact h.2.2.1
    | tail _ hb => exact ih h.2.2.2 hb

/-- Nothing that `validate` looks at holds the hash of a block down except the cap. -/
theorem validate_enforcesWork_iff (hashSha1 : Block → Hashcode) (bc : BlockChain) :
    (validate hashSha1 bc → EnforcesWork hashSha1 bc) ↔
      (bc.length < 2 ^ 32 → Checked hashSha1 0 bc →
        ∀ i (hi : i < bc.length), 1 ≤ i → Matched hashSha1 bc i (hashSha1 bc[i])) := by
  rw [validate_iff, and_imp]
  apply imp_congr_right
  intro _
  apply imp_congr_right
  intro hchecked
  constructor
  · intro h i hi hpos
    exact (le_precedingMax_iff hi hpos _).mp (Nat.le_min.mp (h i hi hpos)).1
  · intro h i hi hpos
    have hcap := hchecked.hash_le (List.getElem_mem hi)
    exact Nat.le_min.mpr ⟨(le_precedingMax_iff hi hpos _).mpr (h i hi hpos), hcap⟩

def nonceHash (b : Block) : Hashcode := b.nonce.toNat

def easyChain : BlockChain :=
  [{ nonce := 1, utcTime := 20 }, { prevBlock := 1, nonce := 1000, utcTime := 35 }]

theorem validate_easyChain :
    ¬ ∀ (hashSha1 : Block → Hashcode) (bc : BlockChain),
      validate hashSha1 bc → EnforcesWork hashSha1 bc := by
  intro h
  have hwork := h nonceHash easyChain (by decide +kernel) 1 (by decide) (by decide)
  revert hwork
  decide +kernel

def Spaced (bc : BlockChain) : Prop :=
  ∀ i (hi : i + 1 < bc.length),
    bc[i].utcTime.toNat + secondsPerBlock ≤ bc[i + 1].utcTime.toNat

/-- The times of a chain are never compared with each other, and no block is a valid chain. -/
theorem validate_spaced_iff (hashSha1 : Block → Hashcode) (bc : BlockChain) :
    (validate hashSha1 bc → bc ≠ [] ∧ Spaced bc) ↔
      bc ≠ [] ∧ (bc.length < 2 ^ 32 → Checked hashSha1 0 bc → Spaced bc) := by
  rw [validate_iff, and_imp]
  constructor
  · intro h
    refine ⟨?_, fun hlen hchecked => (h hlen hchecked).2⟩
    rintro rfl
    exact (h (by decide) trivial).1 rfl
  · rintro ⟨hne, h⟩ hlen hchecked
    exact ⟨hne, h hlen hchecked⟩

def crowdedChain : BlockChain :=
  [{ nonce := 1, utcTime := 20 }, { prevBlock := 1, nonce := 1, utcTime := 20 }]

theorem validate_crowdedChain :
    (¬ ∀ (hashSha1 : Block → Hashcode) (bc : BlockChain),
      validate hashSha1 bc → bc ≠ []) ∧
      ¬ ∀ (hashSha1 : Block → Hashcode) (bc : BlockChain),
        validate hashSha1 bc → Spaced bc := by
  constructor
  · intro h
    exact h nonceHash [] (by decide +kernel) rfl
  · intro h
    have hspaced := h nonceHash crowdedChain (by decide +kernel) 0 (by decide)
    revert hspaced
    decide

end

end Gpm
