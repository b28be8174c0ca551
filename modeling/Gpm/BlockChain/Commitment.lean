import Gpm.BlockChain.Verdict
import Mathlib.Data.Nat.Pairing

namespace Gpm

section

variable {hashSha1 : Block → Hashcode}

variable (hashSha1) in
def headHash (bc : BlockChain) : Hashcode := (bc.map hashSha1).getLastD 0

@[simp] theorem headHash_nil : headHash hashSha1 [] = 0 := rfl

@[simp] theorem headHash_concat (bc : BlockChain) (b : Block) :
    headHash hashSha1 (bc ++ [b]) = hashSha1 b := by
  simp [headHash]

theorem headHash_eq_getLast {bc : BlockChain} (hne : bc ≠ []) :
    headHash hashSha1 bc = hashSha1 (bc.getLast hne) := by
  conv_lhs => rw [← List.dropLast_append_getLast hne]
  exact headHash_concat _ _

theorem Checked.prevBlock_concat {bc : BlockChain} {b : Block}
    (h : Checked hashSha1 0 (bc ++ [b])) :
    Checked hashSha1 0 bc ∧ b.prevBlock = headHash hashSha1 bc := by
  obtain ⟨hfront, hlast⟩ := checked_concat.mp h
  exact ⟨hfront, hlast.2.1⟩

theorem Checked.headHash_injective (hinj : Function.Injective hashSha1)
    (hzero : ∀ b, hashSha1 b ≠ 0) {a b : BlockChain} (ha : Checked hashSha1 0 a)
    (hb : Checked hashSha1 0 b) (h : headHash hashSha1 a = headHash hashSha1 b) : a = b := by
  induction a using List.reverseRecOn generalizing b with
  | nil =>
    cases b using List.reverseRecOn with
    | nil => rfl
    | append_singleton b y =>
      rw [headHash_nil, headHash_concat] at h
      exact absurd h.symm (hzero y)
  | append_singleton a x ih =>
    cases b using List.reverseRecOn with
    | nil =>
      rw [headHash_nil, headHash_concat] at h
      exact absurd h (hzero x)
    | append_singleton b y =>
      rw [headHash_concat, headHash_concat] at h
      obtain ⟨hfrontA, hprevA⟩ := ha.prevBlock_concat
      obtain ⟨hfrontB, hprevB⟩ := hb.prevBlock_concat
      have hxy : x = y := hinj h
      rw [hxy] at hprevA
      rw [hxy, ih hfrontA hfrontB (hprevA.symm.trans hprevB)]

theorem validate_getLast_injective (hinj : Function.Injective hashSha1)
    (hzero : ∀ b, hashSha1 b ≠ 0) {a b : BlockChain} (hneA : a ≠ []) (hneB : b ≠ [])
    (ha : validate hashSha1 a) (hb : validate hashSha1 b)
    (h : hashSha1 (a.getLast hneA) = hashSha1 (b.getLast hneB)) : a = b := by
  have hhead : headHash hashSha1 a = headHash hashSha1 b := by
    rw [headHash_eq_getLast hneA, headHash_eq_getLast hneB, h]
  exact (validate_iff.mp ha).2.headHash_injective hinj hzero (validate_iff.mp hb).2 hhead

end

def pairHash (b : Block) : Hashcode :=
  Nat.pair b.prevBlock (Nat.pair b.version.toNat (Nat.pair b.utcTime.toNat
    (Nat.pair b.state b.nonce.toNat))) + 1

theorem pairHash_injective : Function.Injective pairHash := by
  intro a b h
  obtain ⟨aPrev, aVersion, aTime, aState, aNonce⟩ := a
  obtain ⟨bPrev, bVersion, bTime, bState, bNonce⟩ := b
  simp only [pairHash, Nat.add_right_cancel_iff, Nat.pair_eq_pair, UInt16.toNat_inj,
    UInt32.toNat_inj, UInt64.toNat_inj] at h
  obtain ⟨rfl, rfl, rfl, rfl, rfl⟩ := h
  rfl

theorem pairHash_ne_zero (b : Block) : pairHash b ≠ 0 := Nat.succ_ne_zero _

def pairChain : BlockChain :=
  let genesis : Block := { utcTime := 15 }
  [genesis, { prevBlock := pairHash genesis, utcTime := 30, nonce := 7 }]

theorem validate_getLast_pairChain :
    pairChain = pairChain.dropLast ++ [pairChain.getLastD default] :=
  validate_getLast_injective pairHash_injective pairHash_ne_zero (by decide) (by decide)
    (by decide +kernel) (by decide +kernel) (by decide +kernel)

end Gpm
