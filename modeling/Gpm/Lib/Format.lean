import Mathlib.Data.List.TakeWhile
import Mathlib.Algebra.BigOperators.Group.Finset.Basic
import Mathlib.Algebra.Order.Ring.Nat

/-! Self-delimiting byte formats: a writer together with a reader which consumes
exactly what the writer produced, whatever bytes follow. -/

universe u v

namespace Gpm.Lib

structure Format (α : Type u) where
  pack : α → List UInt8
  unpack : List UInt8 → Option (α × List UInt8)
  unpack_pack : ∀ a rest, unpack (pack a ++ rest) = some (a, rest)
  unpack_consumes : ∀ {b a rest}, unpack b = some (a, rest) →
    ∃ p, b = p ++ rest ∧ ∀ x, unpack (p ++ x) = some (a, x)

namespace Format

variable {α : Type u} {β : Type v}

theorem unpack_append (f : Format α) {b rest : List UInt8} {a : α}
    (h : f.unpack b = some (a, rest)) (x : List UInt8) :
    f.unpack (b ++ x) = some (a, rest ++ x) := by
  obtain ⟨p, rfl, hp⟩ := f.unpack_consumes h
  rw [List.append_assoc]
  exact hp (rest ++ x)

theorem pack_injective (f : Format α) : Function.Injective f.pack := by
  intro a b h
  have ha := f.unpack_pack a []
  rw [h, f.unpack_pack] at ha
  simpa using ha.symm

theorem pack_ne_nil [Nontrivial α] (f : Format α) (a : α) : f.pack a ≠ [] := by
  intro h
  obtain ⟨b, hne⟩ := exists_ne a
  have hb := f.unpack_pack b []
  rw [List.append_nil, ← List.nil_append (f.pack b), ← h, f.unpack_pack] at hb
  exact hne (Prod.mk.inj (Option.some.inj hb)).1.symm

def map (f : Format α) (enc : β → α) (dec : α → Option β)
    (h : ∀ b, dec (enc b) = some b) :
    Format β where
  pack b := f.pack (enc b)
  unpack bs := (f.unpack bs).bind fun (a, rest) => (dec a).map fun b => (b, rest)
  unpack_pack b rest := by simp [f.unpack_pack, h]
  unpack_consumes := by
    intro bs b rest hb
    obtain ⟨⟨a, r⟩, ha, hr⟩ := Option.bind_eq_some_iff.mp hb
    obtain ⟨b', hb', he⟩ := Option.map_eq_some_iff.mp hr
    obtain ⟨rfl, rfl⟩ := Prod.mk.inj he
    obtain ⟨p, rfl, hp⟩ := f.unpack_consumes ha
    exact ⟨p, rfl, fun x => by simp [hp x, hb']⟩

def seq (f : Format α) (g : Format β) : Format (α × β) where
  pack x := f.pack x.1 ++ g.pack x.2
  unpack bs := (f.unpack bs).bind fun (a, r) => (g.unpack r).map fun (b, rest) => ((a, b), rest)
  unpack_pack x rest := by simp [List.append_assoc, f.unpack_pack, g.unpack_pack]
  unpack_consumes := by
    intro bs x rest hx
    obtain ⟨⟨a, r⟩, ha, hr⟩ := Option.bind_eq_some_iff.mp hx
    obtain ⟨⟨b, r'⟩, hb, he⟩ := Option.map_eq_some_iff.mp hr
    obtain ⟨rfl, rfl⟩ := Prod.mk.inj he
    obtain ⟨p, rfl, hp⟩ := f.unpack_consumes ha
    obtain ⟨q, rfl, hq⟩ := g.unpack_consumes hb
    refine ⟨p ++ q, by rw [List.append_assoc], fun x => ?_⟩
    simp [List.append_assoc, hp, hq]

def tagged (tag : Format β) (key : α → β) (body : ∀ t, Format {a : α // key a = t}) :
    Format α where
  pack a := tag.pack (key a) ++ (body (key a)).pack ⟨a, rfl⟩
  unpack bs := (tag.unpack bs).bind fun (t, r) =>
    ((body t).unpack r).map fun (a, rest) => (a.val, rest)
  unpack_pack a rest := by
    simp [List.append_assoc, tag.unpack_pack, (body (key a)).unpack_pack]
  unpack_consumes := by
    intro bs a rest ha
    obtain ⟨⟨t, r⟩, ht, hr⟩ := Option.bind_eq_some_iff.mp ha
    obtain ⟨⟨a', r'⟩, hb, he⟩ := Option.map_eq_some_iff.mp hr
    obtain ⟨rfl, rfl⟩ := Prod.mk.inj he
    obtain ⟨p, rfl, hp⟩ := tag.unpack_consumes ht
    obtain ⟨q, rfl, hq⟩ := (body t).unpack_consumes hb
    refine ⟨p ++ q, by rw [List.append_assoc], fun x => ?_⟩
    simp [List.append_assoc, hp, hq]

def single (a : α) (h : ∀ b, b = a) : Format α where
  pack _ := []
  unpack bs := some (a, bs)
  unpack_pack b rest := by simp [h b]
  unpack_consumes := by
    intro bs b rest hb
    obtain ⟨rfl, rfl⟩ := Prod.mk.inj (Option.some.inj hb)
    exact ⟨[], rfl, fun x => rfl⟩

def void (h : α → False) : Format α where
  pack a := (h a).elim
  unpack _ := none
  unpack_pack a := (h a).elim
  unpack_consumes := by simp

def byte : Format UInt8 where
  pack b := [b]
  unpack
    | [] => none
    | b :: rest => some (b, rest)
  unpack_pack _ _ := rfl
  unpack_consumes := by
    intro bs b rest h
    cases bs with
    | nil => simp at h
    | cons c cs =>
      simp only [Option.some.injEq, Prod.mk.injEq] at h
      obtain ⟨rfl, rfl⟩ := h
      exact ⟨[c], rfl, fun x => rfl⟩

/-- The first `n` bytes, as they are. -/
def raw (n : Nat) : Format {bs : List UInt8 // bs.length = n} where
  pack bs := bs.val
  unpack bs := if h : (bs.take n).length = n then some (⟨bs.take n, h⟩, bs.drop n) else none
  unpack_pack bs rest := by
    obtain ⟨bs, rfl⟩ := bs
    simp
  unpack_consumes := by
    intro bs a rest h
    split at h
    · rename_i hn
      obtain ⟨rfl, rfl⟩ := Prod.mk.inj (Option.some.inj h)
      refine ⟨bs.take n, (List.take_append_drop n bs).symm, fun x => ?_⟩
      have ht : (bs.take n ++ x).take n = bs.take n := by
        rw [List.take_append_of_le_length (Nat.le_of_eq hn.symm), List.take_take, Nat.min_self]
      have hd : (bs.take n ++ x).drop n = x := by
        rw [List.drop_append_of_le_length (Nat.le_of_eq hn.symm)]
        simp
      simp only [ht, hd, hn, dite_true]
    · simp at h

/-- `n` in `k` bytes, lowest byte first; higher digits are cut off. -/
def digits : Nat → Nat → List UInt8
  | 0, _ => []
  | k + 1, n => UInt8.ofNat n :: digits k (n / 256)

def value : List UInt8 → Nat
  | [] => 0
  | b :: bs => b.toNat + 256 * value bs

@[simp] theorem length_digits (k n : Nat) : (digits k n).length = k := by
  induction k generalizing n with
  | zero => rfl
  | succ k ih => simp [digits, ih]

theorem value_digits (k n : Nat) (h : n < 256 ^ k) : value (digits k n) = n := by
  induction k generalizing n with
  | zero => simp only [Nat.pow_zero] at h; simp [digits, value]; omega
  | succ k ih =>
    have hk : n / 256 < 256 ^ k := Nat.div_lt_of_lt_mul (by rwa [Nat.pow_succ, Nat.mul_comm] at h)
    simp only [digits, value, ih _ hk, UInt8.toNat_ofNat']
    omega

theorem digits_value (bs : List UInt8) : digits bs.length (value bs) = bs := by
  induction bs with
  | nil => rfl
  | cons b bs ih =>
    have hb : b.toNat < 256 := b.toNat_lt
    have hhead : UInt8.ofNat (b.toNat + 256 * value bs) = b := by
      apply UInt8.toNat_inj.mp
      rw [UInt8.toNat_ofNat']
      omega
    have htail : (b.toNat + 256 * value bs) / 256 = value bs := by omega
    rw [List.length_cons, value, digits, hhead, htail, ih]

theorem value_lt (bs : List UInt8) : value bs < 256 ^ bs.length := by
  induction bs with
  | nil => simp [value]
  | cons b bs ih =>
    have hb : b.toNat < 256 := b.toNat_lt
    simp only [value, List.length_cons, Nat.pow_succ]
    omega

def fixed (k : Nat) : Format (Fin (256 ^ k)) :=
  (raw k).map (fun n => ⟨digits k n, length_digits k n⟩)
    (fun bs => some ⟨value bs.val, by have := value_lt bs.val; rwa [bs.property] at this⟩)
    (fun n => by simp [value_digits k n n.isLt])

def unary : Format Nat where
  pack n := List.replicate n 1 ++ [0]
  unpack bs :=
    match bs.dropWhile (· = 1) with
    | 0 :: rest => some ((bs.takeWhile (· = 1)).length, rest)
    | _ => none
  unpack_pack n rest := by
    have hd : (List.replicate n (1 : UInt8) ++ [0] ++ rest).dropWhile (· = 1) = 0 :: rest := by
      induction n with
      | zero => simp
      | succ n ih => simp [List.replicate_succ]
    have ht : (List.replicate n (1 : UInt8) ++ [0] ++ rest).takeWhile (· = 1) =
        List.replicate n 1 := by
      induction n with
      | zero => simp
      | succ n ih => simp [List.replicate_succ]
    simp only [hd, ht, List.length_replicate]
  unpack_consumes := by
    intro bs n rest h
    split at h
    · rename_i r hr
      obtain ⟨rfl, rfl⟩ := Prod.mk.inj (Option.some.inj h)
      refine ⟨bs.takeWhile (· = 1) ++ [0], ?_, fun x => ?_⟩
      · rw [List.append_assoc, List.singleton_append, ← hr, List.takeWhile_append_dropWhile]
      · have hall : ∀ b ∈ bs.takeWhile (· = 1), decide (b = 1) = true := fun b hb => by
          simpa using List.mem_takeWhile_imp hb
        have hd : (bs.takeWhile (· = 1) ++ [0] ++ x).dropWhile (· = 1) = 0 :: x := by
          rw [List.append_assoc, List.dropWhile_append_of_pos hall]
          simp
        have ht : (bs.takeWhile (· = 1) ++ [0] ++ x).takeWhile (· = 1) =
            bs.takeWhile (· = 1) := by
          rw [List.append_assoc, List.takeWhile_append_of_pos hall]
          simp
        simp only [hd, ht]
    · simp at h

def width (n : Nat) : Nat := n.log2 / 8 + 1

theorem lt_width (n : Nat) : n < 256 ^ width n := by
  have h : n < 2 ^ (n.log2 + 1) := Nat.lt_log2_self
  apply Nat.lt_of_lt_of_le h
  rw [show (256 : Nat) = 2 ^ 8 from rfl, ← Nat.pow_mul]
  apply Nat.pow_le_pow_right (by decide)
  unfold width
  omega

def big : Format Nat :=
  tagged unary width (fun w =>
    (fixed w).map (fun n =>
      ⟨n.val, Nat.lt_of_lt_of_eq (lt_width n.val) (congrArg (256 ^ ·) n.property)⟩)
      (fun n => if h : width n.val = w then some ⟨n.val, h⟩ else none)
      (by rintro ⟨n, rfl⟩; simp))

def optNat (k : Nat) (hk : 0 < k) : Format (Option Nat) :=
  have h : 2 ≤ 256 ^ k := Nat.le_trans (by decide) (Nat.pow_le_pow_right (by decide) hk)
  tagged (fixed k)
    (fun | none => ⟨256 ^ k - 1, by omega⟩ | some n => ⟨min n (256 ^ k - 2), by omega⟩)
    (fun t =>
      if ht : t.val = 256 ^ k - 1 then
        single ⟨none, by simp [Fin.ext_iff, ht]⟩ (by
          rintro ⟨_ | n, hn⟩
          · rfl
          · simp only [Fin.ext_iff] at hn; omega)
      else if ht' : t.val = 256 ^ k - 2 then
        big.map (fun a => (a.val.getD 0) - (256 ^ k - 2))
          (fun n => some ⟨some (n + (256 ^ k - 2)), by simp only [Fin.ext_iff]; omega⟩) (by
            rintro ⟨_ | n, hn⟩
            · simp only [Fin.ext_iff] at hn; omega
            · simp only [Fin.ext_iff] at hn
              simp only [Option.getD_some, Option.some.injEq, Subtype.mk.injEq]
              omega)
      else
        single ⟨some t.val, by simp only [Fin.ext_iff]; omega⟩ (by
          rintro ⟨_ | n, hn⟩
          · simp only [Fin.ext_iff] at hn; omega
          · simp only [Fin.ext_iff] at hn
            simp only [Subtype.mk.injEq, Option.some.injEq]
            omega))

def nat (k : Nat) (hk : 0 < k) : Format Nat :=
  (optNat k hk).map some id (fun _ => rfl)

theorem pack_nat {k n : Nat} {hk : 0 < k} (h : n < 256 ^ k - 2) :
    (nat k hk).pack n = digits k n := by
  have hmin : min n (256 ^ k - 2) = n := Nat.min_eq_left (Nat.le_of_lt h)
  simp only [nat, map, optNat, tagged, fixed, raw, hmin]
  rw [dif_neg (by omega), dif_neg (by omega)]
  exact List.append_nil _

def bytes (k : Nat) (hk : 0 < k) : Format (List UInt8) :=
  tagged (nat k hk) List.length (fun n =>
    (raw n).map (fun bs => bs) (fun bs => some bs) (fun _ => rfl))

def times (f : Format α) : (n : Nat) → Format {as : List α // as.length = n}
  | 0 => single ⟨[], rfl⟩ (by rintro ⟨as, h⟩; simpa using h)
  | n + 1 =>
    (f.seq (times f n)).map
      (fun | ⟨a :: as, h⟩ => (a, ⟨as, by simpa using h⟩))
      (fun (a, as) => some ⟨a :: as.val, by simp [as.property]⟩)
      (by rintro ⟨_ | ⟨a, as⟩, h⟩ <;> [cases h; rfl])

def many (k : Nat) (hk : 0 < k) (f : Format α) : Format (List α) :=
  tagged (nat k hk) List.length (times f)

def number (f : Format α) (a : α) : Nat := value (f.pack a ++ [1])

theorem value_pos (bs : List UInt8) : 0 < value (bs ++ [1]) := by
  induction bs with
  | nil => decide
  | cons b bs ih => simp only [List.cons_append, value]; omega

theorem value_injective {as bs : List UInt8} (h : value (as ++ [1]) = value (bs ++ [1])) :
    as = bs := by
  induction as generalizing bs with
  | nil =>
    cases bs with
    | nil => rfl
    | cons b bs =>
      have hpos := value_pos bs
      have hone : value ([] ++ [1]) = 1 := by decide
      rw [hone, List.cons_append, value] at h
      omega
  | cons a as ih =>
    have ha : a.toNat < 256 := a.toNat_lt
    cases bs with
    | nil =>
      have hpos := value_pos as
      have hone : value ([] ++ [1]) = 1 := by decide
      rw [hone, List.cons_append, value] at h
      omega
    | cons b bs =>
      have hb : b.toNat < 256 := b.toNat_lt
      simp only [List.cons_append, value] at h
      have hrest : value (as ++ [1]) = value (bs ++ [1]) := by omega
      have hhead : a.toNat = b.toNat := by omega
      rw [ih hrest, UInt8.toNat_inj.mp hhead]

theorem number_injective (f : Format α) : Function.Injective f.number := by
  intro a b h
  exact f.pack_injective (value_injective h)

def numberAfter [DecidableEq α] (l : List α) (f : Format α) (a : α) : Nat :=
  (l.idxOf? a).elim (l.length + f.number a) id

theorem numberAfter_injective [DecidableEq α] (l : List α) (f : Format α) :
    Function.Injective (f.numberAfter l) := by
  have hfound : ∀ {a : α} {i : Nat}, l.idxOf? a = some i → l[i]? = some a := by
    intro a i h
    obtain ⟨hi, ha, -⟩ := List.idxOf?_eq_some_iff.mp h
    rw [List.getElem?_eq_getElem hi, ha]
  intro a b h
  unfold numberAfter at h
  cases ha : l.idxOf? a with
  | none =>
    cases hb : l.idxOf? b with
    | none =>
      rw [ha, hb] at h
      exact f.number_injective (Nat.add_left_cancel h)
    | some j =>
      have hj := (List.getElem?_eq_some_iff.mp (hfound hb)).1
      simp only [ha, hb, Option.elim_none, Option.elim_some, id] at h
      omega
  | some i =>
    have hi := (List.getElem?_eq_some_iff.mp (hfound ha)).1
    cases hb : l.idxOf? b with
    | none =>
      simp only [ha, hb, Option.elim_none, Option.elim_some, id] at h
      omega
    | some j =>
      simp only [ha, hb, Option.elim_some, id] at h
      subst h
      exact Option.some.inj ((hfound ha).symm.trans (hfound hb))

def framed (k : Nat) (hk : 0 < k) (f : Format α) : Format α :=
  (bytes k hk).map f.pack (fun bs => (f.unpack bs).map Prod.fst)
    (fun a => by simpa using congrArg (Option.map Prod.fst) (f.unpack_pack a []))

end Format

end Gpm.Lib
