import Gpm.BlockChain.Verdict

namespace Gpm

section

variable (hashSha1 : Block → Hashcode) (bc : BlockChain)

def windowHashes (index : ℕ) : List Hashcode :=
  hashSha1 (bc.getD index default) ::
    (List.range (min (blockWindow - 1) index)).map fun k => (bc.getD (index - k) default).prevBlock

def targetMax (index : ℕ) : Hashcode := (windowHashes hashSha1 bc index).max?.getD 0

def Linked : Prop :=
  ∀ i b next, bc[i]? = some b → bc[i + 1]? = some next → next.prevBlock = hashSha1 b

end

theorem windowMax_eq (bc : BlockChain) {i c : ℕ} (hc : c < blockWindow) (max : Hashcode) :
    windowMax bc i c max = ((List.range (min (blockWindow - c) i)).map fun k =>
      (bc.getD (i - k) default).prevBlock).foldl Max.max max := by
  induction i generalizing c max with
  | zero => simp [windowMax]
  | succ i ih =>
    have hmax : (if max < (bc.getD (i + 1) default).prevBlock then
        (bc.getD (i + 1) default).prevBlock else max) =
        Max.max max (bc.getD (i + 1) default).prevBlock := by
      rw [Nat.max_def]
      split
      · rw [if_pos (Nat.le_of_lt ‹_›)]
      · split
        · exact Nat.le_antisymm ‹_› (Nat.not_lt.mp ‹_›)
        · rfl
    have hlen : min (blockWindow - c) (i + 1) = min (blockWindow - (c + 1)) i + 1 := by omega
    rw [hlen, List.range_succ_eq_map, List.map_cons, List.foldl_cons, List.map_map]
    unfold windowMax
    simp only [hmax]
    have hshift : ((fun k => (bc.getD (i + 1 - k) default).prevBlock) ∘ Nat.succ) =
        fun k => (bc.getD (i - k) default).prevBlock := by
      funext k
      simp only [Function.comp, Nat.succ_eq_add_one, Nat.add_sub_add_right]
    rw [hshift]
    split
    · have hend : min (blockWindow - (c + 1)) i = 0 := by omega
      rw [hend]
      rfl
    · exact ih (by omega) _

theorem targetMax_eq (hashSha1 : Block → Hashcode) (bc : BlockChain) (index : ℕ) :
    targetMax hashSha1 bc index = windowMax bc index 1 (hashSha1 (bc.getD index default)) := by
  rw [windowMax_eq bc (by decide), targetMax, windowHashes, List.max?_cons']
  rfl

section Linked

variable {hashSha1 : Block → Hashcode} {bc : BlockChain} {index : ℕ}

theorem Linked.mem_windowHashes (h : Linked hashSha1 bc) (hlt : index < bc.length) (x : Hashcode) :
    x ∈ windowHashes hashSha1 bc index ↔
      x ∈ ((bc.take (index + 1)).drop (index + 1 - blockWindow)).map hashSha1 := by
  have hget : ∀ {i} (hi : i < bc.length), bc.getD i default = bc[i] := by
    intro i hi
    simp [List.getD, hi]
  rw [windowHashes, List.mem_cons, List.mem_map, List.mem_map]
  simp only [List.mem_range, mem_window]
  constructor
  · rintro (rfl | ⟨k, hk, rfl⟩)
    · exact ⟨bc[index], ⟨index, hlt, by omega, by unfold blockWindow; omega, rfl⟩,
        by rw [hget hlt]⟩
    · have hsucc : index - k - 1 + 1 = index - k := by omega
      have hnamed := h (index - k - 1) bc[index - k - 1] bc[index - k]
        (List.getElem?_eq_getElem _) (by rw [hsucc]; exact List.getElem?_eq_getElem _)
      rw [hget (by omega), hnamed]
      exact ⟨_, ⟨index - k - 1, by omega, by omega, by omega, rfl⟩, rfl⟩
  · rintro ⟨_, ⟨j, hj, hji, hij, rfl⟩, rfl⟩
    by_cases heq : j = index
    · subst heq
      exact Or.inl (by rw [hget hlt])
    · refine Or.inr ⟨index - (j + 1), by omega, ?_⟩
      have hback : index - (index - (j + 1)) = j + 1 := by omega
      rw [hback, hget (by omega)]
      exact h j bc[j] bc[j + 1] (List.getElem?_eq_getElem _) (List.getElem?_eq_getElem _)

theorem Linked.targetMax_eq (h : Linked hashSha1 bc) (hlt : index < bc.length) :
    targetMax hashSha1 bc index = precedingMax hashSha1 bc (index + 1) := by
  have hmax : ∃ m, (windowHashes hashSha1 bc index).max? = some m := by
    rw [windowHashes, List.max?_cons']
    exact ⟨_, rfl⟩
  obtain ⟨m, hm⟩ := hmax
  have hsome := List.max?_eq_some_iff.mp hm
  simp only [h.mem_windowHashes hlt] at hsome
  rw [targetMax, precedingMax, hm, List.max?_eq_some_iff.mpr hsome]

end Linked

/-- The detour over packed bytes, the overflow of twenty of them and the clipping amount to the
minimum, which has room in a `sha1_hashcode`. -/
theorem calculateHashTarget_eq (hashSha1 : Block → Hashcode) {bc : BlockChain} {index : ℕ}
    (hpos : 1 ≤ index) (hlt : index < bc.length)
    (hdefault : index = 2 ^ 32 - 1 → bc.length = 2 ^ 32) :
    calculateHashTarget hashSha1 bc index =
        min getMaxHash (targetMax hashSha1 bc index * 257 / 256) ∧
      calculateHashTarget hashSha1 bc index < 256 ^ 20 ∧
      (Linked hashSha1 bc → targetMax hashSha1 bc index =
        precedingMax hashSha1 bc (index + 1)) := by
  have hindex : (if index = 2 ^ 32 - 1 then (bc.length - 1) % 2 ^ 32 else index) = index := by
    split
    · rename_i heq
      rw [hdefault heq, heq, Nat.mod_eq_of_lt (by decide)]
    · rfl
  have hbound : min getMaxHash (targetMax hashSha1 bc index * 257 / 256) < 256 ^ 20 :=
    Nat.lt_of_le_of_lt (Nat.min_le_left _ _) (Nat.lt_trans getMaxHash_lt (by decide))
  have htarget : calculateHashTarget hashSha1 bc index =
      min getMaxHash (targetMax hashSha1 bc index * 257 / 256) := by
    rw [targetMax_eq, Nat.min_comm, ← scaleTarget_eq]
    unfold calculateHashTarget
    simp only [hindex]
    rw [if_neg (by omega)]
  exact ⟨htarget, htarget ▸ hbound, fun h => h.targetMax_eq hlt⟩

theorem calculateHashTarget_eq_easyChain :
    calculateHashTarget nonceHash easyChain 1 =
        min getMaxHash (targetMax nonceHash easyChain 1 * 257 / 256) ∧
      calculateHashTarget nonceHash easyChain 1 < 256 ^ 20 ∧
      (Linked nonceHash easyChain →
        targetMax nonceHash easyChain 1 = precedingMax nonceHash easyChain 2) :=
  calculateHashTarget_eq nonceHash (by decide) (by decide) (by decide)

def overlongChain : BlockChain := List.replicate (2 ^ 32 + 1) {}

theorem targetMax_replicate (n index : ℕ) :
    targetMax (fun _ => 0) (List.replicate n {}) index = 0 := by
  have hget : ∀ i, ((List.replicate n ({} : Block)).getD i default).prevBlock = 0 := by
    intro i
    rw [List.getD_eq_getElem?_getD, List.getElem?_replicate]
    split <;> rfl
  have hall : ∀ x ∈ windowHashes (fun _ => 0) (List.replicate n {}) index, x = 0 := by
    intro x hx
    rw [windowHashes, List.mem_cons, List.mem_map] at hx
    obtain rfl | ⟨k, -, rfl⟩ := hx
    · rfl
    · exact hget (index - k)
  cases hmax : (windowHashes (fun _ => 0) (List.replicate n {}) index).max? with
  | none => rw [targetMax, hmax, Option.getD_none]
  | some m => rw [targetMax, hmax, Option.getD_some, hall m (List.max?_mem hmax)]

theorem calculateHashTarget_overlongChain :
    ¬ ∀ (hashSha1 : Block → Hashcode) (bc : BlockChain) (index : UInt32),
      1 ≤ index.toNat → index.toNat < bc.length →
      calculateHashTarget hashSha1 bc index.toNat =
        min getMaxHash (targetMax hashSha1 bc index.toNat * 257 / 256) := by
  intro h
  have hlen : overlongChain.length = 2 ^ 32 + 1 := List.length_replicate
  have htarget := h (fun _ => 0) overlongChain (-1) (by decide) (by rw [hlen]; decide)
  rw [overlongChain, targetMax_replicate, ← overlongChain] at htarget
  unfold calculateHashTarget at htarget
  simp only [hlen] at htarget
  revert htarget
  decide +kernel

end Gpm
