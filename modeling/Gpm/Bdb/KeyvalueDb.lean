import Gpm.Lib.Btree
import Gpm.StateDb.Record

universe u v

namespace Gpm

def indexGt : Index → Index → Bool
  | none, some _ => true
  | some i, some j => j < i
  | _, none => false

namespace AccountKey

def gt (a b : AccountKey) : Bool :=
  indexGt a.accountName b.accountName ||
    a.accountName == b.accountName && indexGt a.typeName b.typeName

def eq (a b : AccountKey) : Bool := a.accountName == b.accountName && a.typeName == b.typeName

end AccountKey

abbrev TrxDbKey := ℤ × Hashcode

namespace TrxDbKey

def lt (a b : TrxDbKey) : Bool := a.1 < b.1 || !decide (b.1 < a.1) && decide (a.2 < b.2)

def gt (a b : TrxDbKey) : Bool := lt b a

def eq (a b : TrxDbKey) : Bool := a.1 == b.1 && a.2 == b.2

def cmp : TrxDbKey → TrxDbKey → Ordering :=
  compareLex (compareOn Prod.fst) (compareOn Prod.snd)

instance : Std.TransCmp cmp := by unfold cmp; infer_instance

instance : Std.LawfulEqCmp cmp where
  eq_of_compare := by
    rintro ⟨i, h⟩ ⟨j, h'⟩ heq
    simp only [cmp, compareLex, compareOn, Ordering.then_eq_eq,
      Std.LawfulEqOrd.compare_eq_iff_eq] at heq
    rw [heq.1, heq.2]

end TrxDbKey

structure KeychainAddress where
  address : Name
  deriving DecidableEq

namespace KeychainAddress

def gt (a b : KeychainAddress) : Bool := (compare a.address b.address).isGT

def eq (a b : KeychainAddress) : Bool := a.address == b.address

def cmp : KeychainAddress → KeychainAddress → Ordering := compareOn address

instance : Std.TransCmp cmp := by unfold cmp; infer_instance

instance : Std.LawfulEqCmp cmp where
  eq_of_compare := by
    rintro ⟨a⟩ ⟨b⟩ heq
    simp only [cmp, compareOn, Std.LawfulEqOrd.compare_eq_iff_eq] at heq
    rw [heq]

end KeychainAddress

structure UserId where
  ip : UInt32
  port : UInt16
  deriving DecidableEq

namespace UserId

def gt (a b : UserId) : Bool := a.ip > b.ip || a.ip == b.ip && a.port > b.port

def eq (a b : UserId) : Bool := a.ip == b.ip && a.ip == b.ip

def cmp : UserId → UserId → Ordering :=
  compareLex (compareOn fun u => u.ip.toNat) (compareOn fun u => u.port.toNat)

instance : Std.TransCmp cmp := by unfold cmp; infer_instance

instance : Std.LawfulEqCmp cmp where
  eq_of_compare := by
    rintro ⟨i, p⟩ ⟨j, q⟩ heq
    simp only [cmp, compareLex, compareOn, Ordering.then_eq_eq, Nat.compare_eq_eq,
      UInt32.toNat_inj, UInt16.toNat_inj] at heq
    rw [heq.1, heq.2]

end UserId

open Lib.Btree (IsFirst Holds Orders)

namespace Bdb

def compareKeys {κ : Type u} (gt eq : κ → κ → Bool) (k1 k2 : κ) : ℤ :=
  if gt k1 k2 then 1 else if eq k1 k2 then 0 else -1

structure KeyvalueDb (κ : Type u) (υ : Type v) where
  entries : List (κ × υ) := []
  cursors : ℕ → Option κ := fun _ => none

inductive Call (κ : Type u) (υ : Type v)
  | set (k : κ) (v : υ)
  | remove (k : κ)
  | get (k : κ)
  | find (i : ℕ) (k : κ)
  | search (i : ℕ) (k : κ)
  | begin_ (i : ℕ)
  | next (i : ℕ)

inductive Answer (κ : Type u) (υ : Type v)
  | done
  | removed (found : Bool)
  | got (v : Option υ)
  | shown (e : Option (κ × υ))

section

variable {κ : Type u} {υ : Type v}

def Call.key : Call κ υ → Option κ
  | .set k _ | .remove k | .get k | .find _ k | .search _ k => some k
  | .begin_ _ | .next _ => none

def Answer.key : Answer κ υ → Option κ
  | .shown e => e.map Prod.fst
  | _ => none

namespace KeyvalueDb

variable (compare : κ → κ → ℤ)

def find (k : κ) (db : KeyvalueDb κ υ) : Option (κ × υ) := Lib.Btree.get compare k db.entries

variable [DecidableEq κ]

def place (i : ℕ) (e : Option (κ × υ)) (db : KeyvalueDb κ υ) : KeyvalueDb κ υ :=
  { db with cursors := Function.update db.cursors i (e.map Prod.fst) }

def step (db : KeyvalueDb κ υ) : Call κ υ → Answer κ υ × KeyvalueDb κ υ
  | .set k v => (.done, { db with entries := Lib.Btree.put compare k v db.entries })
  | .remove k =>
    let rest := Lib.Btree.del compare k db.entries
    (.removed rest.isSome, { db with entries := rest.getD db.entries })
  | .get k => (.got ((db.find compare k).map Prod.snd), db)
  | .find i k =>
    let e := db.find compare k
    (.shown (e.map fun e => (k, e.2)), db.place i e)
  | .search i k =>
    let e := Lib.Btree.getRange compare k db.entries
    (.shown e, db.place i e)
  | .begin_ i =>
    let e := Lib.Btree.next compare none db.entries
    (.shown e, db.place i e)
  | .next i =>
    let e := Lib.Btree.next compare (db.cursors i) db.entries
    (.shown e, if e.isSome then db.place i e else db)

def answers : KeyvalueDb κ υ → List (Call κ υ) → List (Answer κ υ)
  | _, [] => []
  | db, c :: cs => (db.step compare c).1 :: answers (db.step compare c).2 cs

def Always (P : KeyvalueDb κ υ → Call κ υ → Prop) :
    KeyvalueDb κ υ → List (Call κ υ) → Prop
  | _, [] => True
  | db, c :: cs => P db c ∧ Always P (db.step compare c).2 cs

end KeyvalueDb

/-- A `std::map`: the value of each key, and the keys its iterators point to. -/
structure StdMap (κ : Type u) (υ : Type v) where
  entries : κ → Option υ
  iterators : ℕ → Option κ

namespace StdMap

variable (cmp : κ → κ → Ordering) [DecidableEq κ]

def Allows (m : StdMap κ υ) (c : Call κ υ) (a : Answer κ υ) (m' : StdMap κ υ) : Prop :=
  match c with
  | .set k v => a = .done ∧ m' = { m with entries := Function.update m.entries k (some v) }
  | .remove k =>
    a = .removed (m.entries k).isSome ∧
      m' = { m with entries := Function.update m.entries k none }
  | .get k => a = .got (m.entries k) ∧ m' = m
  | .find i k =>
    a = .shown ((m.entries k).map fun v => (k, v)) ∧
      m' = { m with iterators := Function.update m.iterators i a.key }
  | .search i k =>
    (∃ e, a = .shown e ∧ IsFirst cmp (fun k' => (cmp k k').isLE) m.entries e) ∧
      m' = { m with iterators := Function.update m.iterators i a.key }
  | .begin_ i =>
    (∃ e, a = .shown e ∧ IsFirst cmp (fun _ => True) m.entries e) ∧
      m' = { m with iterators := Function.update m.iterators i a.key }
  | .next i =>
    (∀ k, m.iterators i = some k → (m.entries k).isSome →
      ∃ e, a = .shown e ∧ IsFirst cmp (fun k' => cmp k k' = .lt) m.entries e) ∧
      m' = { m with iterators := Function.update m.iterators i a.key }

def Answers : StdMap κ υ → List (Call κ υ) → List (Answer κ υ) → Prop
  | _, [], as => as = []
  | m, c :: cs, as => ∃ a rest m', as = a :: rest ∧ m.Allows cmp c a m' ∧ Answers m' cs rest

end StdMap

def LikeMap [DecidableEq κ] (cmp : κ → κ → Ordering) (compare : κ → κ → ℤ)
    (calls : List (Call κ υ)) : Prop :=
  StdMap.Answers cmp ⟨fun _ => none, fun _ => none⟩ calls (KeyvalueDb.answers compare {} calls)

structure Stores (cmp : κ → κ → Ordering) (m : StdMap κ υ) (db : KeyvalueDb κ υ) :
    Prop where
  holds : Holds cmp m.entries db.entries
  cursors : ∀ i k, m.iterators i = some k → db.cursors i = some k

variable {cmp : κ → κ → Ordering} {compare : κ → κ → ℤ} {m : StdMap κ υ}
  {db : KeyvalueDb κ υ} {c : Call κ υ}

theorem Stores.empty : Stores cmp ⟨fun _ => none, fun _ => none⟩ ({} : KeyvalueDb κ υ) :=
  ⟨Lib.Btree.holds_nil, fun _ _ h => by cases h⟩

theorem Stores.place (h : Stores cmp m db) (i : ℕ) (e : Option (κ × υ)) :
    Stores cmp { m with iterators := Function.update m.iterators i (e.map Prod.fst) }
      (db.place i e) where
  holds := h.holds
  cursors j k hj := by
    simp only [KeyvalueDb.place, Function.update_apply] at hj ⊢
    split
    · rwa [if_pos ‹_›] at hj
    · rw [if_neg ‹_›] at hj
      exact h.cursors j k hj

variable [DecidableEq κ]

theorem Stores.step [Std.TransCmp cmp] [Std.LawfulEqCmp cmp] (h : Stores cmp m db)
    (ho : ∀ k, c.key = some k → Orders cmp compare k db.entries) :
    ∃ m', m.Allows cmp c (db.step compare c).1 m' ∧ Stores cmp m' (db.step compare c).2 := by
  cases c with
  | set k v => exact ⟨_, ⟨rfl, rfl⟩, h.holds.put (ho k rfl) v, h.cursors⟩
  | remove k =>
    obtain ⟨hfound, hholds⟩ := h.holds.del (ho k rfl)
    exact ⟨_, ⟨congrArg Answer.removed hfound, rfl⟩, hholds, h.cursors⟩
  | get k =>
    have hget : db.find compare k = _ := h.holds.get (ho k rfl)
    refine ⟨m, ⟨?_, rfl⟩, h⟩
    simp only [KeyvalueDb.step, hget]
    cases m.entries k <;> rfl
  | find i k =>
    have hget : db.find compare k = _ := h.holds.get (ho k rfl)
    have hstores := h.place i (db.find compare k)
    refine ⟨_, ⟨?_, rfl⟩, ?_⟩
    · simp only [KeyvalueDb.step, hget, Option.map_map]
      rfl
    · simp only [KeyvalueDb.step, Answer.key, Option.map_map]
      rw [hget, Option.map_map] at hstores ⊢
      exact hstores
  | search i k => exact ⟨_, ⟨⟨_, rfl, h.holds.getRange (ho k rfl)⟩, rfl⟩, h.place i _⟩
  | begin_ i => exact ⟨_, ⟨⟨_, rfl, h.holds.head⟩, rfl⟩, h.place i _⟩
  | next i =>
    refine ⟨_, ⟨fun k hk hsome => ?_, rfl⟩, ?_⟩
    · refine ⟨_, rfl, ?_⟩
      rw [h.cursors i k hk]
      exact h.holds.next hsome
    · simp only [KeyvalueDb.step, Answer.key]
      cases hnext : Lib.Btree.next compare (db.cursors i) db.entries with
      | none =>
        refine ⟨h.holds, fun j k hj => ?_⟩
        simp only [Option.map_none, Function.update_apply] at hj
        split at hj
        · cases hj
        · exact h.cursors j k hj
      | some e => exact h.place i (some e)

theorem KeyvalueDb.Always.mono {P Q : KeyvalueDb κ υ → Call κ υ → Prop}
    {calls : List (Call κ υ)}
    (h : KeyvalueDb.Always compare P db calls) (hPQ : ∀ db c, P db c → Q db c) :
    KeyvalueDb.Always compare Q db calls := by
  induction calls generalizing db with
  | nil => trivial
  | cons c cs ih => exact ⟨hPQ db c h.1, ih h.2⟩

theorem KeyvalueDb.always {P : KeyvalueDb κ υ → Call κ υ → Prop} (hP : ∀ db c, P db c)
    (db : KeyvalueDb κ υ) (calls : List (Call κ υ)) : KeyvalueDb.Always compare P db calls := by
  induction calls generalizing db with
  | nil => trivial
  | cons c cs ih => exact ⟨hP db c, ih _⟩

theorem Stores.answers [Std.TransCmp cmp] [Std.LawfulEqCmp cmp] {calls : List (Call κ υ)}
    (h : Stores cmp m db)
    (ho : KeyvalueDb.Always compare (fun db c => ∀ k, c.key = some k →
      Orders cmp compare k db.entries) db calls) :
    m.Answers cmp calls (db.answers compare calls) := by
  induction calls generalizing m db with
  | nil => rfl
  | cons c cs ih =>
    obtain ⟨m', hallows, hstores⟩ := h.step ho.1
    exact ⟨_, _, m', rfl, hallows, ih hstores ho.2⟩

end

section Keys

variable {κ : Type u} {cmp : κ → κ → Ordering} {gt eq : κ → κ → Bool} {a b : κ}

theorem compareKeys_eq (hgt : gt a b ↔ cmp a b = .gt) (heq : eq a b ↔ cmp a b = .eq) :
    compareKeys gt eq a b = Lib.Btree.ofOrdering (cmp a b) := by
  unfold compareKeys
  cases h : cmp a b with
  | gt => rw [if_pos (hgt.mpr h)]; rfl
  | eq => rw [if_neg (by simp [hgt, h]), if_pos (heq.mpr h)]; rfl
  | lt => rw [if_neg (by simp [hgt, h]), if_neg (by simp [heq, h])]; rfl

theorem indexGt_iff {i j : Index} : indexGt i j ↔
    (AccountKey.rank j).1 < (AccountKey.rank i).1 ∨
      (AccountKey.rank i).1 = (AccountKey.rank j).1 ∧
        (AccountKey.rank j).2 < (AccountKey.rank i).2 := by
  cases i <;> cases j <;> simp [indexGt, AccountKey.rank]

theorem compareKeys_accountKey (a b : AccountKey) :
    compareKeys AccountKey.gt AccountKey.eq a b = Lib.Btree.ofOrdering (AccountKey.cmp a b) := by
  obtain ⟨i, s⟩ := a
  obtain ⟨j, t⟩ := b
  apply compareKeys_eq
  · simp only [AccountKey.gt, AccountKey.cmp, compareLex, compareOn, Ordering.then_eq_gt,
      Nat.compare_eq_gt, Nat.compare_eq_eq, Bool.or_eq_true, Bool.and_eq_true, beq_iff_eq,
      indexGt_iff, ← AccountKey.rank_injective.eq_iff (a := i), Prod.ext_iff]
    omega
  · rw [Std.LawfulEqCmp.compare_eq_iff_eq, AccountKey.mk.injEq, AccountKey.eq, Bool.and_eq_true,
      beq_iff_eq, beq_iff_eq]

theorem compareKeys_trxDbKey (a b : TrxDbKey) :
    compareKeys TrxDbKey.gt TrxDbKey.eq a b = Lib.Btree.ofOrdering (TrxDbKey.cmp a b) := by
  obtain ⟨i, g⟩ := a
  obtain ⟨j, h⟩ := b
  apply compareKeys_eq
  · simp only [TrxDbKey.gt, TrxDbKey.lt, TrxDbKey.cmp, compareLex, compareOn, Ordering.then_eq_gt,
      Nat.compare_eq_gt, Std.LawfulEqOrd.compare_eq_iff_eq, Bool.or_eq_true, Bool.and_eq_true,
      Bool.not_eq_true', decide_eq_true_iff, decide_eq_false_iff_not, Int.compare_eq_gt]
    obtain hlt | heq | hlt := lt_trichotomy i j
    · simp [hlt, hlt.not_gt, hlt.ne]
    · simp [heq]
    · simp [hlt]
  · rw [Std.LawfulEqCmp.compare_eq_iff_eq, Prod.mk.injEq, TrxDbKey.eq, Bool.and_eq_true,
      beq_iff_eq, beq_iff_eq]

theorem compareKeys_keychainAddress (a b : KeychainAddress) :
    compareKeys KeychainAddress.gt KeychainAddress.eq a b =
      Lib.Btree.ofOrdering (KeychainAddress.cmp a b) := by
  apply compareKeys_eq
  · exact Ordering.isGT_iff_eq_gt
  · rw [KeychainAddress.eq, beq_iff_eq, KeychainAddress.cmp, compareOn,
      Std.LawfulEqOrd.compare_eq_iff_eq]

theorem compareKeys_userId (a b : UserId) :
    compareKeys UserId.gt UserId.eq a b = Lib.Btree.ofOrdering (UserId.cmp a b) ↔
      (b.ip = a.ip → b.port ≤ a.port) := by
  obtain ⟨i, p⟩ := a
  obtain ⟨j, q⟩ := b
  have hgt : UserId.gt ⟨i, p⟩ ⟨j, q⟩ ↔ UserId.cmp ⟨i, p⟩ ⟨j, q⟩ = .gt := by
    simp only [UserId.gt, UserId.cmp, compareLex, compareOn, Ordering.then_eq_gt,
      Nat.compare_eq_gt, Nat.compare_eq_eq, Bool.or_eq_true, Bool.and_eq_true, beq_iff_eq,
      decide_eq_true_iff, gt_iff_lt, UInt32.lt_iff_toNat_lt, UInt16.lt_iff_toNat_lt,
      UInt32.toNat_inj]
  have heq : UserId.eq ⟨i, p⟩ ⟨j, q⟩ ↔ i = j := by
    rw [UserId.eq, Bool.and_self, beq_iff_eq]
  have hcmp : UserId.cmp ⟨i, p⟩ ⟨j, q⟩ = .eq ↔ i = j ∧ p = q := by
    rw [Std.LawfulEqCmp.compare_eq_iff_eq, UserId.mk.injEq]
  by_cases hij : i = j
  · subst hij
    have hport : UserId.cmp ⟨i, p⟩ ⟨i, q⟩ = .gt ↔ q < p := by
      simp only [UserId.cmp, compareLex, compareOn, Ordering.then_eq_gt, Nat.compare_eq_gt,
        Nat.compare_eq_eq, Nat.lt_irrefl, false_or, true_and, UInt16.lt_iff_toNat_lt]
    unfold compareKeys
    cases h : UserId.cmp ⟨i, p⟩ ⟨i, q⟩ with
    | gt =>
      rw [if_pos (hgt.mpr h)]
      exact iff_of_true rfl fun _ => UInt16.le_of_lt (hport.mp h)
    | eq =>
      rw [if_neg (by simp [hgt, h]), if_pos (heq.mpr rfl)]
      exact iff_of_true rfl fun _ => (hcmp.mp h).2 ▸ UInt16.le_refl q
    | lt =>
      rw [if_neg (by simp [hgt, h]), if_pos (heq.mpr rfl)]
      refine iff_of_false (by decide) fun hle => ?_
      by_cases hpq : p = q
      · rw [hcmp.mpr ⟨rfl, hpq⟩] at h
        cases h
      · rw [hport.mpr (UInt16.lt_of_le_of_ne (hle rfl) (Ne.symm hpq))] at h
        cases h
  · refine iff_of_true (compareKeys_eq hgt ?_) fun h => absurd h.symm hij
    rw [heq, hcmp]
    exact iff_of_false hij fun h => hij h.1

def PortsBelow {υ : Type v} (db : KeyvalueDb UserId υ) (c : Call UserId υ) : Prop :=
  ∀ k, c.key = some k → ∀ e ∈ db.entries, e.1.ip = k.ip → e.1.port ≤ k.port

/-- Three of the key types make a map, and the fourth one where the callback is never asked for
a port that is too low. -/
theorem keyvalueDb_likeMap (υ : Type v) :
    (∀ calls : List (Call AccountKey υ),
        LikeMap AccountKey.cmp (compareKeys AccountKey.gt AccountKey.eq) calls) ∧
      (∀ calls : List (Call TrxDbKey υ),
        LikeMap TrxDbKey.cmp (compareKeys TrxDbKey.gt TrxDbKey.eq) calls) ∧
      (∀ calls : List (Call KeychainAddress υ),
        LikeMap KeychainAddress.cmp (compareKeys KeychainAddress.gt KeychainAddress.eq) calls) ∧
      ∀ calls : List (Call UserId υ),
        KeyvalueDb.Always (compareKeys UserId.gt UserId.eq) PortsBelow {} calls →
        LikeMap UserId.cmp (compareKeys UserId.gt UserId.eq) calls := by
  have hall : ∀ {κ : Type} [DecidableEq κ] {cmp : κ → κ → Ordering} [Std.TransCmp cmp]
      [Std.LawfulEqCmp cmp] {compare : κ → κ → ℤ},
      (∀ a b, compare a b = Lib.Btree.ofOrdering (cmp a b)) →
      ∀ calls : List (Call κ υ), LikeMap cmp compare calls := fun hcompare calls =>
    Stores.empty.answers (KeyvalueDb.always (fun _ _ _ _ _ _ => hcompare _ _) {} calls)
  refine ⟨hall compareKeys_accountKey, hall compareKeys_trxDbKey,
    hall compareKeys_keychainAddress, fun calls h => ?_⟩
  apply Stores.empty.answers
  exact h.mono fun db c hports k hk e he => (compareKeys_userId k e.1).mpr (hports k hk e he)

theorem keyvalueDb_likeMap_risingPorts :
    LikeMap UserId.cmp (compareKeys UserId.gt UserId.eq)
      ([.set ⟨1, 1⟩ 10, .set ⟨1, 2⟩ 20, .get ⟨1, 2⟩] : List (Call UserId ℕ)) := by
  refine (keyvalueDb_likeMap ℕ).2.2.2 _ ⟨?_, ?_, ?_, trivial⟩
  all_goals
    rintro k ⟨rfl⟩
    decide

def twoPorts : List (Call UserId ℕ) := [.set ⟨1, 2⟩ 10, .set ⟨1, 1⟩ 20, .get ⟨1, 2⟩]

theorem keyvalueDb_twoPorts :
    ¬ ((∀ calls : List (Call AccountKey ℕ),
        LikeMap AccountKey.cmp (compareKeys AccountKey.gt AccountKey.eq) calls) ∧
      (∀ calls : List (Call TrxDbKey ℕ),
        LikeMap TrxDbKey.cmp (compareKeys TrxDbKey.gt TrxDbKey.eq) calls) ∧
      (∀ calls : List (Call KeychainAddress ℕ),
        LikeMap KeychainAddress.cmp (compareKeys KeychainAddress.gt KeychainAddress.eq) calls) ∧
      ∀ calls : List (Call UserId ℕ),
        LikeMap UserId.cmp (compareKeys UserId.gt UserId.eq) calls) := by
  rintro ⟨-, -, -, h⟩
  obtain ⟨a, _, _, hfirst, ⟨-, rfl⟩, b, _, _, hsecond, ⟨-, rfl⟩, c, _, _, hthird,
      ⟨hgot, -⟩, -⟩ :=
    h twoPorts
  rw [hthird, hgot] at hsecond
  rw [hsecond] at hfirst
  cases hfirst

end Keys

end Bdb

end Gpm
