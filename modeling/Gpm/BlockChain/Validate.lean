import Gpm.BlockChain.Types
import Gpm.Lib.Format

namespace Gpm

open Lib.Format (digits value)

def blockWindow : ℕ := 30
def secondsPerBlock : ℕ := 15

def getMaxHash : Hashcode := value (List.replicate 18 0xff ++ List.replicate 2 0)

def numBytes (n : ℕ) : ℕ := if n = 0 then 0 else n.log2 / 8 + 1

/-- The bytes `raw::pack` writes for a `bigint`, highest first. -/
def packBigint (n : ℕ) : List UInt8 := (digits (numBytes n) n).reverse

def ofBigEndian (bs : List UInt8) : ℕ := value bs.reverse

section

variable (hashSha1 : Block → Hashcode)

/-- The loop of `calculate_hash_target`: `i` counts down, `c` counts the hashes seen. -/
def windowMax (bc : BlockChain) : ℕ → ℕ → Hashcode → Hashcode
  | 0, _, max => max
  | i + 1, c, max =>
    let prev := (bc.getD (i + 1) default).prevBlock
    let max := if max < prev then prev else max
    if c + 1 = blockWindow then max else windowMax bc i (c + 1) max

def scaleTarget (max : Hashcode) : Hashcode :=
  let dat := packBigint (max * 257 / 256)
  let max :=
    if dat.length ≤ 20 then ofBigEndian (List.replicate (20 - dat.length) 0 ++ dat) else max
  if getMaxHash < max then getMaxHash else max

def calculateHashTarget (bc : BlockChain) (index : ℕ := 2 ^ 32 - 1) : Hashcode :=
  let index := if index = 2 ^ 32 - 1 then (bc.length - 1) % 2 ^ 32 else index
  if index = 0 then getMaxHash
  else scaleTarget (windowMax bc index 1 (hashSha1 (bc.getD index default)))

/-- The loop of `validate` over the blocks from index `i` on. -/
def validateFrom (bc : BlockChain) (prevTime : UInt32) : List Block → ℕ → Hashcode → Bool
  | [], _, _ => true
  | b :: bs, i, prevHash =>
    if (b.utcTime - prevTime).toNat < secondsPerBlock then false
    else if b.prevBlock ≠ prevHash then false
    else if calculateHashTarget hashSha1 bc i < hashSha1 b then false
    else validateFrom bc prevTime bs (i + 1) (hashSha1 b)

def validate (bc : BlockChain) : Bool :=
  decide (bc.length < 2 ^ 32) && validateFrom hashSha1 bc 0 bc 0 0

/-- The `while` loop of `generate`; `fuel` bounds how often the nonce can grow. -/
def generateLoop (target : Hashcode) (stop : UInt64) : ℕ → Block → Block
  | 0, b => b
  | fuel + 1, b =>
    if target < hashSha1 b ∧ b.nonce < stop then
      generateLoop target stop fuel { b with nonce := b.nonce + 1 }
    else b

def generate (b : Block) (target : Hashcode) (start : UInt64 := 0) (stop : UInt64 := -1) :
    Bool × Block :=
  let b := generateLoop hashSha1 target stop (stop - start).toNat { b with nonce := start }
  (hashSha1 b < target, b)

theorem generateLoop_eq (target : Hashcode) (stop : UInt64) (fuel : ℕ) (b : Block) :
    ∃ nonce, generateLoop hashSha1 target stop fuel b = { b with nonce } := by
  induction fuel generalizing b with
  | zero => exact ⟨b.nonce, rfl⟩
  | succ fuel ih =>
    unfold generateLoop
    split
    · exact ih _
    · exact ⟨b.nonce, rfl⟩

theorem generateLoop_of_le {target : Hashcode} {b : Block} (h : hashSha1 b ≤ target)
    (stop : UInt64) (fuel : ℕ) : generateLoop hashSha1 target stop fuel b = b := by
  cases fuel with
  | zero => rfl
  | succ fuel =>
    unfold generateLoop
    rw [if_neg fun hlt => absurd hlt.1 (Nat.not_lt.mpr h)]

theorem generate_eq (b : Block) (target : Hashcode) (start stop : UInt64) :
    ∃ nonce, (generate hashSha1 b target start stop).2 = { b with nonce } :=
  generateLoop_eq hashSha1 target stop _ _

end

end Gpm
