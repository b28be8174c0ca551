import Mathlib.Data.Nat.Notation

/-! Three bytes as four characters, and what is left over at the end with padding. -/

namespace Gpm.Lib.Base64

def pad : UInt8 := 61

def char (n : ℕ) : UInt8 :=
  if n < 26 then UInt8.ofNat (n + 65)
  else if n < 52 then UInt8.ofNat (n + 71)
  else if n < 62 then UInt8.ofNat (n - 4)
  else if n = 62 then 43 else 47

def sextet (c : UInt8) : ℕ :=
  if 97 ≤ c then c.toNat - 71
  else if 65 ≤ c then c.toNat - 65
  else if 48 ≤ c then c.toNat + 4
  else if c = 43 then 62 else 63

def encode : List UInt8 → List UInt8
  | a :: b :: c :: rest =>
    char (a.toNat / 4) :: char (a.toNat % 4 * 16 + b.toNat / 16) ::
      char (b.toNat % 16 * 4 + c.toNat / 64) :: char (c.toNat % 64) :: encode rest
  | [a, b] =>
    [char (a.toNat / 4), char (a.toNat % 4 * 16 + b.toNat / 16), char (b.toNat % 16 * 4), pad]
  | [a] => [char (a.toNat / 4), char (a.toNat % 4 * 16), pad, pad]
  | [] => []

def first (w x : UInt8) : UInt8 := UInt8.ofNat (sextet w * 4 + sextet x / 16)

def second (x y : UInt8) : UInt8 := UInt8.ofNat (sextet x % 16 * 16 + sextet y / 4)

def third (y z : UInt8) : UInt8 := UInt8.ofNat (sextet y % 4 * 64 + sextet z)

def decode : List UInt8 → List UInt8
  | w :: x :: y :: z :: rest =>
    if y = pad then [first w x]
    else if z = pad then [first w x, second x y]
    else first w x :: second x y :: third y z :: decode rest
  | _ => []

theorem sextet_char {n : ℕ} (h : n < 64) : sextet (char n) = n := by
  have hall : ∀ n : Fin 64, sextet (char n) = n := by decide
  exact hall ⟨n, h⟩

theorem char_ne_pad {n : ℕ} (h : n < 64) : char n ≠ pad := by
  have hall : ∀ n : Fin 64, char n ≠ pad := by decide
  exact hall ⟨n, h⟩

theorem first_char (a : UInt8) {k : ℕ} (hk : k < 16) :
    first (char (a.toNat / 4)) (char (a.toNat % 4 * 16 + k)) = a := by
  have ha := a.toNat_lt
  rw [first, sextet_char (by omega), sextet_char (by omega)]
  apply UInt8.toNat_inj.mp
  rw [UInt8.toNat_ofNat']
  omega

theorem second_char (b : UInt8) {j k : ℕ} (hj : j < 4) (hk : k < 4) :
    second (char (j * 16 + b.toNat / 16)) (char (b.toNat % 16 * 4 + k)) = b := by
  have hb := b.toNat_lt
  rw [second, sextet_char (by omega), sextet_char (by omega)]
  apply UInt8.toNat_inj.mp
  rw [UInt8.toNat_ofNat']
  omega

theorem third_char (c : UInt8) {j : ℕ} (hj : j < 16) :
    third (char (j * 4 + c.toNat / 64)) (char (c.toNat % 64)) = c := by
  have hc := c.toNat_lt
  rw [third, sextet_char (by omega), sextet_char (by omega)]
  apply UInt8.toNat_inj.mp
  rw [UInt8.toNat_ofNat']
  omega

theorem decode_encode (bs : List UInt8) : decode (encode bs) = bs := by
  fun_induction encode bs with
  | case1 a b c rest ih =>
    have hb := b.toNat_lt
    have hc := c.toNat_lt
    rw [decode, if_neg (char_ne_pad (by omega)), if_neg (char_ne_pad (by omega)),
      first_char a (by omega), second_char b (by omega) (by omega), third_char c (by omega), ih]
  | case2 a b =>
    have hb := b.toNat_lt
    have hsecond := second_char b (Nat.mod_lt a.toNat (by decide : 0 < 4)) (by decide : 0 < 4)
    rw [Nat.add_zero] at hsecond
    rw [decode, if_neg (char_ne_pad (by omega)), if_pos rfl, first_char a (by omega), hsecond]
  | case3 a =>
    have hfirst := first_char a (by decide : 0 < 16)
    rw [Nat.add_zero] at hfirst
    rw [decode, if_pos rfl, hfirst]
  | case4 => rfl

end Gpm.Lib.Base64
