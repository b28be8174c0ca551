import Gpm.Lib.Feistel
import Gpm.Lib.Format
import Mathlib.Data.List.ProdSigma

namespace Gpm

open Lib.Format (digits value length_digits value_digits digits_value value_lt)

/-- A `sblock`. -/
structure SBlock where
  uil : UInt32
  uir : UInt32
  deriving DecidableEq

structure Blowfish where
  auiP : Fin 18 → UInt32
  auiS : Fin 4 → UInt8 → UInt32

namespace Blowfish

variable (bf : Blowfish)

def F (ui : UInt32) : UInt32 :=
  ((bf.auiS 0 (ui >>> 24).toUInt8 + bf.auiS 1 (ui >>> 16).toUInt8) ^^^
    bf.auiS 2 (ui >>> 8).toUInt8) + bf.auiS 3 ui.toUInt8

def rounds (is : List (Fin 18)) (s : UInt32 × UInt32) : UInt32 × UInt32 :=
  Lib.Feistel.rounds (· ^^^ ·) (fun i ui => bf.F ui ^^^ bf.auiP i) is s

/-- The sixteen positions of `m_auiP` between the first and the last. -/
def middle : List (Fin 18) := [1, 2, 3, 4, 5, 6, 7, 8, 9, 10, 11, 12, 13, 14, 15, 16]

def encryptBlock (b : SBlock) : SBlock :=
  let s := bf.rounds middle (b.uil ^^^ bf.auiP 0, b.uir)
  ⟨s.2 ^^^ bf.auiP 17, s.1⟩

def decryptBlock (b : SBlock) : SBlock :=
  let s := bf.rounds middle.reverse (b.uil ^^^ bf.auiP 17, b.uir)
  ⟨s.2 ^^^ bf.auiP 0, s.1⟩

def keyWord (key : List UInt8) (i : ℕ) : UInt32 :=
  (List.range 4).foldl
    (fun x n => x <<< 8 ||| (key.getD ((4 * i + n) % key.length) 0).toUInt32) 0

def reflectP (s : Blowfish × SBlock) (i : Fin 9) : Blowfish × SBlock :=
  let b := s.1.encryptBlock s.2
  ({ s.1 with
      auiP := fun k =>
        if k.val = 2 * i.val then b.uil else if k.val = 2 * i.val + 1 then b.uir
        else s.1.auiP k }, b)

def reflectS (s : Blowfish × SBlock) (jk : Fin 4 × Fin 128) : Blowfish × SBlock :=
  let b := s.1.encryptBlock s.2
  ({ s.1 with
      auiS := fun j k =>
        if j = jk.1 ∧ k.toNat = 2 * jk.2.val then b.uil
        else if j = jk.1 ∧ k.toNat = 2 * jk.2.val + 1 then b.uir else s.1.auiS j k }, b)

def schedule (init : Blowfish) (key : List UInt8) : Blowfish :=
  let bf := { init with auiP := fun i => init.auiP i ^^^ keyWord key i.val }
  let s := (List.finRange 9).foldl reflectP (bf, ⟨0, 0⟩)
  ((List.finRange 4 ×ˢ List.finRange 128).foldl reflectS s).1

def start (init : Blowfish) (ucKey : List UInt8) : Except String Blowfish :=
  if ucKey.length < 1 then .error "Incorrect key length"
  else .ok (schedule init (ucKey.take 56))

theorem xor_xor_cancel (a b : UInt32) : a ^^^ b ^^^ b = a := by
  rw [UInt32.xor_assoc, UInt32.xor_self, UInt32.xor_zero]

theorem decryptBlock_encryptBlock (b : SBlock) : bf.decryptBlock (bf.encryptBlock b) = b := by
  have hrounds := Lib.Feistel.rounds_reverse_swap (f := fun i ui => bf.F ui ^^^ bf.auiP i)
    xor_xor_cancel middle (b.uil ^^^ bf.auiP 0, b.uir)
  simp only [decryptBlock, encryptBlock, xor_xor_cancel, rounds]
  change Lib.Feistel.rounds _ _ middle.reverse (_, _) = (b.uir, b.uil ^^^ bf.auiP 0) at hrounds
  simp only [hrounds, xor_xor_cancel]

end Blowfish

namespace SBlock

def ofBytes (p : List UInt8) : SBlock :=
  ⟨UInt32.ofNat (value (p.take 4).reverse), UInt32.ofNat (value ((p.drop 4).take 4).reverse)⟩

def toBytes (b : SBlock) : List UInt8 :=
  (digits 4 b.uil.toNat).reverse ++ (digits 4 b.uir.toNat).reverse

theorem length_toBytes (b : SBlock) : b.toBytes.length = 8 := by
  simp only [toBytes, List.length_append, List.length_reverse, length_digits]

theorem ofBytes_toBytes (b : SBlock) (rest : List UInt8) : ofBytes (b.toBytes ++ rest) = b := by
  obtain ⟨l, r⟩ := b
  have hword (ui : UInt32) : UInt32.ofNat (value (digits 4 ui.toNat)) = ui := by
    rw [value_digits 4 ui.toNat ui.toNat_lt, UInt32.ofNat_toNat]
  have hleft : (digits 4 l.toNat).reverse.length = 4 := by simp
  have hright : (digits 4 r.toNat).reverse.length = 4 := by simp
  simp only [ofBytes, toBytes, List.append_assoc, List.take_left' hleft, List.drop_left' hleft,
    List.take_left' hright, List.reverse_reverse, hword]

theorem toBytes_ofBytes {p : List UInt8} (h : p.length = 8) : (ofBytes p).toBytes = p := by
  have hword {q : List UInt8} (hq : q.length = 4) :
      digits 4 (UInt32.ofNat (value q.reverse)).toNat = q.reverse := by
    have hlt := value_lt q.reverse
    have hdigits := digits_value q.reverse
    rw [List.length_reverse, hq] at hlt hdigits
    rw [UInt32.toNat_ofNat', Nat.mod_eq_of_lt (show value q.reverse < 2 ^ 32 from hlt), hdigits]
  have htake : (p.take 4).length = 4 := by simp [h]
  have hdrop : (p.drop 4).length = 4 := by simp [h]
  have hall : (p.drop 4).take 4 = p.drop 4 := List.take_of_length_le (Nat.le_of_eq hdrop)
  simp only [ofBytes, toBytes, hall, hword htake, hword hdrop, List.reverse_reverse,
    List.take_append_drop]

end SBlock

namespace Blowfish

/-- The loop over a buffer, eight bytes at a time, in the mode `ECB`. -/
def ecb (f : SBlock → SBlock) : ℕ → List UInt8 → List UInt8
  | 0, _ => []
  | n + 1, buf => (f (.ofBytes buf)).toBytes ++ ecb f n (buf.drop 8)

def Whole (buf : List UInt8) : Prop := buf.length ≠ 0 ∧ buf.length % 8 = 0

instance : DecidablePred Whole := fun buf =>
  inferInstanceAs (Decidable (buf.length ≠ 0 ∧ buf.length % 8 = 0))

def encrypted (bf : Blowfish) (buf : List UInt8) : List UInt8 :=
  ecb bf.encryptBlock (buf.length / 8) buf

def decrypted (bf : Blowfish) (buf : List UInt8) : List UInt8 :=
  ecb bf.decryptBlock (buf.length / 8) buf

def encrypt (bf : Blowfish) (buf : List UInt8) : Except String (List UInt8) :=
  if Whole buf then .ok (bf.encrypted buf) else .error "Incorrect buffer length"

def decrypt (bf : Blowfish) (buf : List UInt8) : Except String (List UInt8) :=
  if Whole buf then .ok (bf.decrypted buf) else .error "Incorrect buffer length"

theorem length_ecb (f : SBlock → SBlock) (n : ℕ) (buf : List UInt8) :
    (ecb f n buf).length = 8 * n := by
  induction n generalizing buf with
  | zero => rfl
  | succ n ih =>
    rw [ecb, List.length_append, SBlock.length_toBytes, ih]
    omega

theorem ecb_ecb {f g : SBlock → SBlock} (hgf : ∀ b, g (f b) = b) (n : ℕ) (buf : List UInt8) :
    buf.length = 8 * n → ecb g n (ecb f n buf) = buf := by
  induction n generalizing buf with
  | zero =>
    intro h
    rw [ecb, List.eq_nil_of_length_eq_zero h]
  | succ n ih =>
    intro h
    have hdrop : (buf.drop 8).length = 8 * n := by
      rw [List.length_drop]
      omega
    have htake : (buf.take 8).length = 8 := by
      rw [List.length_take]
      omega
    have hfirst : SBlock.ofBytes buf = SBlock.ofBytes (buf.take 8) := by
      simp [SBlock.ofBytes, List.take_take, List.drop_take]
    rw [ecb, ecb, SBlock.ofBytes_toBytes, hgf, List.drop_left' (SBlock.length_toBytes _),
      ih _ hdrop, hfirst, SBlock.toBytes_ofBytes htake, List.take_append_drop]

variable {bf : Blowfish} {buf : List UInt8}

theorem Whole.eight_mul (h : Whole buf) : 8 * (buf.length / 8) = buf.length :=
  Nat.mul_div_cancel' (Nat.dvd_of_mod_eq_zero h.2)

theorem length_encrypted (h : Whole buf) : (bf.encrypted buf).length = buf.length := by
  rw [encrypted, length_ecb, h.eight_mul]

theorem length_decrypted (h : Whole buf) : (bf.decrypted buf).length = buf.length := by
  rw [decrypted, length_ecb, h.eight_mul]

theorem Whole.encrypted (h : Whole buf) : Whole (bf.encrypted buf) := by
  unfold Whole
  rw [length_encrypted h]
  exact h

theorem decrypted_encrypted (h : Whole buf) : bf.decrypted (bf.encrypted buf) = buf := by
  rw [decrypted, length_encrypted h, Blowfish.encrypted, ecb_ecb bf.decryptBlock_encryptBlock]
  exact h.eight_mul.symm

theorem encrypt_of_whole (h : Whole buf) : bf.encrypt buf = .ok (bf.encrypted buf) := if_pos h

theorem decrypt_of_whole (h : Whole buf) : bf.decrypt buf = .ok (bf.decrypted buf) := if_pos h

theorem encrypt_of_not_whole (h : ¬Whole buf) :
    bf.encrypt buf = .error "Incorrect buffer length" := if_neg h

theorem decrypt_of_not_whole (h : ¬Whole buf) :
    bf.decrypt buf = .error "Incorrect buffer length" := if_neg h

theorem start_of_ne_nil {init : Blowfish} {key : List UInt8} (h : key ≠ []) :
    start init key = .ok (schedule init (key.take 56)) :=
  if_neg (Nat.not_lt.mpr (List.length_pos_of_ne_nil h))

end Blowfish

end Gpm
