import Mathlib.Data.List.Sort
import Mathlib.Data.List.TakeWhile

/-! Sorting, removal of duplicates and ranges of keys, over an order given by its comparison. -/

universe u v

namespace Gpm.Lib

section

variable {α : Type u} (cmp : α → α → Ordering)

def below (a : α) (l : List α) : List α := l.filter fun b => (cmp b a).isLT

def unique [DecidableEq α] : List α → List α
  | [] => []
  | [a] => [a]
  | a :: b :: l => if a = b then unique (b :: l) else a :: unique (b :: l)

def sortUnique [DecidableEq α] (l : List α) : List α :=
  unique (l.insertionSort fun a b => (cmp a b).isLE)

def Increasing (l : List α) : Prop := l.Pairwise fun a b => cmp a b = .lt

def within (lo hi a : α) : Bool := (cmp lo a).isLE && (cmp a hi).isLE

/-- The position of the first key that is not below `k`, behind the last if there is none. -/
def lowerBound (k : α) (l : List α) : ℕ := l.findIdx fun a => (cmp k a).isLE

/-- The position of the first key above `k`, behind the last if there is none. -/
def upperBound (k : α) (l : List α) : ℕ := l.findIdx fun a => !(cmp a k).isLE

/-- An iterator goes from position `s`, with these keys before it, to position `e`; behind the
last key there is nothing to go on to. -/
def walk {m : Type v → Type v} [Monad m] {β : Type v} (past : m (List β))
    (f : α → m β) (e : ℕ) :
    ℕ → List α → m (List β)
  | s, [] => if s = e then pure [] else past
  | s, a :: l =>
    if s = e then pure []
    else do
      let b ← f a
      let bs ← walk past f e (s + 1) l
      return b :: bs

def walkRange {m : Type v → Type v} [Monad m] {β : Type v} (past : m (List β)) (f : α → m β)
    (lo hi : α) (l : List α) : m (List β) :=
  walk past f (upperBound cmp hi l) (lowerBound cmp lo l) (l.drop (lowerBound cmp lo l))

end

variable {α : Type u} {cmp : α → α → Ordering} {l l' : List α} {a b lo hi : α}

theorem lt_of_isLE_of_ne [Std.LawfulEqCmp cmp] (h : (cmp a b).isLE) (hne : a ≠ b) :
    cmp a b = .lt := by
  cases hc : cmp a b with
  | lt => rfl
  | eq => exact absurd (Std.LawfulEqCmp.eq_of_compare hc) hne
  | gt => simp [hc] at h

namespace Increasing

theorem filter (h : Increasing cmp l) (p : α → Bool) : Increasing cmp (l.filter p) :=
  List.Pairwise.filter p h

theorem take (h : Increasing cmp l) (n : ℕ) : Increasing cmp (l.take n) :=
  List.Pairwise.sublist (List.take_sublist n l) h

theorem drop (h : Increasing cmp l) (n : ℕ) : Increasing cmp (l.drop n) :=
  List.Pairwise.sublist (List.drop_sublist n l) h

theorem of_cons (h : Increasing cmp (a :: l)) : Increasing cmp l := List.Pairwise.of_cons h

theorem lt (h : Increasing cmp (a :: l)) (hb : b ∈ l) : cmp a b = .lt :=
  List.rel_of_pairwise_cons h hb

theorem filter_append (h : Increasing cmp l) {p q : α → Bool}
    (hpq : ∀ a ∈ l, q a = !p a) (hend : ∀ a ∈ l, ∀ b ∈ l, cmp a b =
      .lt → p b → p a) :
    l = l.filter p ++ l.filter q := by
  induction l with
  | nil => rfl
  | cons a l ih =>
    have ih := ih h.of_cons (fun b hb => hpq b (List.mem_cons_of_mem a hb))
      fun b hb c hc => hend b (List.mem_cons_of_mem a hb) c (List.mem_cons_of_mem a hc)
    have hq := hpq a List.mem_cons_self
    cases hp : p a with
    | true => simp [hp, hq, ← ih]
    | false =>
      have hnone : l.filter p = [] := by
        apply List.filter_eq_nil_iff.mpr
        intro b hb hpb
        have hpa := hend a List.mem_cons_self b (List.mem_cons_of_mem a hb) (h.lt hb) hpb
        rw [hp] at hpa
        cases hpa
      rw [hnone, List.nil_append] at ih
      simp [hp, hq, hnone, ← ih]

end Increasing

section Unique

variable [DecidableEq α]

theorem mem_unique : a ∈ unique l ↔ a ∈ l := by
  induction l using unique.induct with
  | case1 => rfl
  | case2 => rfl
  | case3 b l ih =>
    rw [unique, if_pos rfl, ih]
    simp
  | case4 b c l h ih =>
    rw [unique, if_neg h, List.mem_cons, ih]
    simp

theorem mem_sortUnique : a ∈ sortUnique cmp l ↔ a ∈ l := by
  rw [sortUnique, mem_unique, List.mem_insertionSort]

variable [Std.TransCmp cmp] [Std.LawfulEqCmp cmp]

theorem unique_increasing (h : l.Pairwise fun a b => (cmp a b).isLE) :
    Increasing cmp (unique l) := by
  induction l using unique.induct with
  | case1 => exact List.Pairwise.nil
  | case2 b => exact List.pairwise_singleton _ b
  | case3 b l ih =>
    rw [unique, if_pos rfl]
    exact ih h.of_cons
  | case4 b c l hbc ih =>
    rw [unique, if_neg hbc]
    refine List.pairwise_cons.mpr ⟨fun x hx => ?_, ih h.of_cons⟩
    rw [mem_unique] at hx
    have hlt := lt_of_isLE_of_ne (List.rel_of_pairwise_cons h List.mem_cons_self) hbc
    cases List.mem_cons.mp hx with
    | inl hx => rw [hx]; exact hlt
    | inr hx =>
      exact Std.TransCmp.lt_of_lt_of_isLE hlt (List.rel_of_pairwise_cons h.of_cons hx)

theorem sortUnique_increasing (l : List α) : Increasing cmp (sortUnique cmp l) := by
  have htotal : Std.Total fun a b => (cmp a b).isLE = true :=
    ⟨fun a b => by
      cases h : cmp a b with
      | gt => exact Or.inr (by rw [Std.OrientedCmp.lt_of_gt h]; rfl)
      | _ => exact Or.inl rfl⟩
  have htrans : IsTrans α fun a b => (cmp a b).isLE = true :=
    ⟨fun _ _ _ => Std.TransCmp.isLE_trans⟩
  exact unique_increasing (List.pairwise_insertionSort _ l)

end Unique

section Increasing

variable [Std.TransCmp cmp]

namespace Increasing

theorem nodup (h : Increasing cmp l) : l.Nodup := by
  apply h.imp
  rintro a b hab rfl
  have heq : cmp a a = .eq := Std.ReflCmp.compare_self
  rw [heq] at hab
  cases hab

theorem ext (h : Increasing cmp l) (h' : Increasing cmp l') (hmem : ∀ x, x ∈ l ↔ x ∈ l') :
    l = l' := by
  apply List.Perm.eq_of_pairwise _ h h' ((List.perm_ext_iff_of_nodup h.nodup h'.nodup).mpr hmem)
  intro a b _ _ hab hba
  exact absurd hba (Std.OrientedCmp.not_lt_of_lt hab)

theorem sortUnique_eq [DecidableEq α] [Std.LawfulEqCmp cmp] (h : Increasing cmp l')
    (hmem : ∀ x, x ∈ l ↔ x ∈ l') : sortUnique cmp l = l' :=
  (sortUnique_increasing l).ext h fun x => mem_sortUnique.trans (hmem x)

theorem drop_lowerBound (h : Increasing cmp l) :
    l.drop (lowerBound cmp lo l) = l.filter fun a => (cmp lo a).isLE := by
  induction l with
  | nil => rfl
  | cons a l ih =>
    unfold lowerBound at ih ⊢
    rw [List.findIdx_cons, List.filter_cons]
    cases ha : (cmp lo a).isLE with
    | false => exact ih h.of_cons
    | true =>
      have hall : l.filter (fun a => (cmp lo a).isLE) = l := by
        apply List.filter_eq_self.mpr
        intro b hb
        exact Std.TransCmp.isLE_trans ha (by rw [h.lt hb]; rfl)
      simp [hall]

theorem take_upperBound (h : Increasing cmp l) :
    l.take (upperBound cmp hi l) = l.filter fun a => (cmp a hi).isLE := by
  induction l with
  | nil => rfl
  | cons a l ih =>
    unfold upperBound at ih ⊢
    rw [List.findIdx_cons, List.filter_cons]
    cases ha : (cmp a hi).isLE with
    | true =>
      simp only [Bool.not_true, cond_false, List.take_succ_cons, if_true, ih h.of_cons]
    | false =>
      have hnone : l.filter (fun a => (cmp a hi).isLE) = [] := by
        apply List.filter_eq_nil_iff.mpr
        intro b hb hle
        rw [Std.TransCmp.lt_of_lt_of_isLE (h.lt hb) hle] at ha
        cases ha
      simp [hnone]

theorem not_isLE_of_mem_drop (h : Increasing cmp l) (ha : a ∈ l.drop (upperBound cmp hi l)) :
    ¬ (cmp a hi).isLE := by
  intro hle
  have htake : a ∈ l.take (upperBound cmp hi l) := by
    rw [h.take_upperBound]
    exact List.mem_filter.mpr ⟨List.mem_of_mem_drop ha, hle⟩
  exact List.disjoint_take_drop h.nodup (Nat.le_refl _) htake ha

end Increasing

theorem findIdx_drop (p : α → Bool) {n : ℕ} (h : n ≤ l.findIdx p) :
    (l.drop n).findIdx p = l.findIdx p - n := by
  induction l generalizing n with
  | nil => simp
  | cons a l ih =>
    cases n with
    | zero => rfl
    | succ n =>
      rw [List.findIdx_cons] at h ⊢
      cases ha : p a with
      | true => simp [ha] at h
      | false =>
        simp only [ha, cond_false, Nat.succ_le_succ_iff] at h
        simp only [List.drop_succ_cons, cond_false, ih h, Nat.add_sub_add_right]

theorem lowerBound_le_upperBound (h : (cmp lo hi).isLE) :
    lowerBound cmp lo l ≤ upperBound cmp hi l := by
  apply List.findIdx_le_findIdx
  intro a _ ha
  cases hc : (cmp a hi).isLE with
  | true => simp [hc] at ha
  | false =>
    have hgt : (cmp hi a).isLE := by
      cases hcmp : cmp a hi with
      | gt => rw [Std.OrientedCmp.lt_of_gt hcmp]; rfl
      | _ => simp [hcmp] at hc
    exact Std.TransCmp.isLE_trans h hgt

end Increasing

theorem Increasing.length_below_le [Std.TransCmp cmp] (h : Increasing cmp l)
    (hsub : ∀ x ∈ l, x ∈ l') (a : α) :
    (below cmp a l).length ≤ (below cmp a l').length := by
  apply List.Subperm.length_le
  apply List.subperm_of_subset (h.filter _).nodup
  intro x hx
  rw [List.mem_filter] at hx
  exact List.mem_filter.mpr ⟨hsub x hx.1, hx.2⟩

section First

variable [DecidableEq α]

theorem length_unique_le (l : List α) : (unique l).length ≤ l.length := by
  induction l using unique.induct with
  | case1 => exact Nat.le_refl _
  | case2 => exact Nat.le_refl _
  | case3 b l ih =>
    rw [unique, if_pos rfl]
    exact Nat.le_succ_of_le ih
  | case4 b c l h ih =>
    rw [unique, if_neg h]
    exact Nat.succ_le_succ ih

theorem length_sortUnique_le (l : List α) : (sortUnique cmp l).length ≤ l.length := by
  rw [← List.length_insertionSort (fun a b => (cmp a b).isLE) l]
  exact length_unique_le _

variable [Std.TransCmp cmp] [Std.LawfulEqCmp cmp] {n : ℕ}

theorem Increasing.mem_take_iff (h : Increasing cmp l) (ha : a ∈ l) :
    a ∈ l.take n ↔ (below cmp a l).length < n := by
  induction l generalizing n with
  | nil => cases ha
  | cons b l ih =>
    cases n with
    | zero => simp
    | succ n =>
      rw [List.take_succ_cons, List.mem_cons, below, List.filter_cons]
      by_cases hab : a = b
      · have hnone : l.filter (fun b => (cmp b a).isLT) = [] := by
          apply List.filter_eq_nil_iff.mpr
          intro c hc hlt
          rw [hab, Std.OrientedCmp.gt_of_lt (h.lt hc)] at hlt
          cases hlt
        have heq : cmp b b = .eq := Std.ReflCmp.compare_self
        rw [hab] at hnone
        simp [hab, heq, hnone]
      · have hmem : a ∈ l := (List.mem_cons.mp ha).resolve_left hab
        simp only [hab, false_or, h.lt hmem, Ordering.isLT_lt, if_true, List.length_cons,
          Nat.succ_lt_succ_iff]
        exact ih h.of_cons hmem

theorem Increasing.sortUnique_eq_take_iff (h : Increasing cmp l') (hsub : ∀ x ∈ l, x ∈ l')
    (hlen : l.length ≤ n) :
    sortUnique cmp l = l'.take n ↔ ∀ x ∈ l', x ∉ l → n ≤ (below cmp x l').length := by
  constructor
  · intro heq x hx hnot
    apply Nat.not_lt.mp
    intro hlt
    have hmem := (h.mem_take_iff hx).mpr hlt
    rw [← heq, mem_sortUnique] at hmem
    exact hnot hmem
  · intro hall
    have hfirst : ∀ x ∈ l'.take n, x ∈ sortUnique cmp l := by
      intro x hx
      rw [mem_sortUnique]
      by_contra hnot
      have hmem : x ∈ l' := List.mem_of_mem_take hx
      exact absurd ((h.mem_take_iff hmem).mp hx) (Nat.not_lt.mpr (hall x hmem hnot))
    have hinc : Increasing cmp (sortUnique cmp l) := sortUnique_increasing l
    apply hinc.ext (h.take n)
    intro x
    refine ⟨fun hx => ?_, hfirst x⟩
    by_cases hlong : l'.length ≤ n
    · rw [List.take_of_length_le hlong]
      exact hsub x (mem_sortUnique.mp hx)
    · have hperm := (List.subperm_of_subset (h.take n).nodup hfirst).perm_of_length_le (by
        rw [List.length_take, Nat.min_eq_left (Nat.le_of_not_le hlong)]
        exact Nat.le_trans (length_sortUnique_le l) hlen)
      exact hperm.mem_iff.mpr hx

theorem Increasing.merge_take_iff {ks own all : List α} (hks : Increasing cmp ks)
    (hown : Increasing cmp own) (hall : Increasing cmp all)
    (hmem : ∀ x, x ∈ all ↔ x ∈ own ∨ x ∈ ks) :
    sortUnique cmp ((ks.take n ++ own).take n) = all.take n ↔
      ∀ x ∈ own, x ∉ ks → min n ks.length + (below cmp x own).length < n ∨
        n ≤ (below cmp x all).length := by
  have hcut : ∀ x, x ∈ (ks.take n ++ own).take n ↔
      x ∈ ks.take n ∨ x ∈ own.take (n - min n ks.length) := by
    intro x
    rw [List.take_append, List.take_take, Nat.min_self, List.length_take, List.mem_append]
  have hsub : ∀ x ∈ (ks.take n ++ own).take n, x ∈ all := by
    intro x hx
    rw [hmem]
    exact ((hcut x).mp hx).symm.imp List.mem_of_mem_take List.mem_of_mem_take
  rw [hall.sortUnique_eq_take_iff hsub (List.length_take_le n _)]
  constructor
  · intro h x hx hnew
    by_cases hplace : min n ks.length + (below cmp x own).length < n
    · exact Or.inl hplace
    · refine Or.inr (h x ((hmem x).mpr (Or.inl hx)) ?_)
      rw [hcut, hown.mem_take_iff hx]
      rintro (hfirst | hlt)
      · exact hnew (List.mem_of_mem_take hfirst)
      · omega
  · intro h x hx hnot
    rw [hcut, not_or] at hnot
    by_cases hold : x ∈ ks
    · have hfar := hnot.1
      rw [hks.mem_take_iff hold, Nat.not_lt] at hfar
      exact Nat.le_trans hfar (hks.length_below_le (fun y hy => (hmem y).mpr (Or.inr hy)) x)
    · have hx := ((hmem x).mp hx).resolve_right hold
      have hfar := hnot.2
      rw [hown.mem_take_iff hx] at hfar
      exact (h x hx hold).resolve_left fun hplace => hfar (by omega)

end First

section Walk

variable {m : Type v → Type v} [Monad m] {β : Type v} {past : m (List β)} {f : α → m β}

theorem walkRange_of_lt (hlo : ∀ a ∈ l, ¬ (cmp lo a).isLE) :
    walkRange cmp past f lo hi l = if ∀ a ∈ l, (cmp a hi).isLE then pure [] else past := by
  have hlower : lowerBound cmp lo l = l.length := List.findIdx_eq_length.mpr fun a ha => by
    simpa using hlo a ha
  have hupper : l.length = upperBound cmp hi l ↔ ∀ a ∈ l, (cmp a hi).isLE := by
    rw [eq_comm, upperBound, List.findIdx_eq_length]
    simp only [Bool.not_eq_false']
  rw [walkRange, hlower, List.drop_length, walk]
  simp only [hupper]

variable [LawfulMonad m]

theorem walk_eq {e s : ℕ} (hs : s ≤ e) (he : e ≤ s + l.length) :
    walk past f e s l = (l.take (e - s)).mapM f := by
  induction l generalizing s with
  | nil =>
    have heq : s = e := Nat.le_antisymm hs he
    simp [walk, heq]
  | cons a l ih =>
    unfold walk
    by_cases heq : s = e
    · simp [heq]
    · rw [List.length_cons] at he
      have hlen : e - s = (e - (s + 1)) + 1 := by omega
      rw [if_neg heq, hlen, List.take_succ_cons, List.mapM_cons, ih (by omega) (by omega)]

variable [Std.TransCmp cmp]

theorem walkRange_eq (h : Increasing cmp l) (hle : (cmp lo hi).isLE) :
    walkRange cmp past f lo hi l = (l.filter (within cmp lo hi)).mapM f := by
  have hbounds : lowerBound cmp lo l ≤ upperBound cmp hi l := lowerBound_le_upperBound hle
  have hend : upperBound cmp hi l ≤ l.length := List.findIdx_le_length
  have htake : (l.drop (lowerBound cmp lo l)).take (upperBound cmp hi l - lowerBound cmp lo l) =
      l.filter (within cmp lo hi) := by
    have hupper : upperBound cmp hi l - lowerBound cmp lo l =
        upperBound cmp hi (l.drop (lowerBound cmp lo l)) := (findIdx_drop _ hbounds).symm
    rw [hupper, (h.drop _).take_upperBound, h.drop_lowerBound, List.filter_filter]
    apply List.filter_congr
    intro a _
    rw [within, Bool.and_comm]
  rw [walkRange, walk_eq hbounds (by rw [List.length_drop]; omega), htake]

end Walk

theorem filter_takeWhile_iff {p q : α → Bool} (hqp : ∀ a, q a → p a) (l : List α) :
    (l.takeWhile p).filter q = l.filter q ↔ l.Pairwise fun a b => ¬ p a → ¬ q b := by
  induction l with
  | nil => simp
  | cons a l ih =>
    rw [List.pairwise_cons]
    by_cases hp : p a
    · have hhead : ∀ b ∈ l, ¬ p a → ¬ q b := fun _ _ hno => absurd hp hno
      rw [List.takeWhile_cons_of_pos hp, and_iff_right hhead, ← ih]
      by_cases hq : q a
      · rw [List.filter_cons_of_pos hq, List.filter_cons_of_pos hq, List.cons.injEq,
          and_iff_right rfl]
      · rw [List.filter_cons_of_neg hq, List.filter_cons_of_neg hq]
    · have hq : ¬ q a := fun hq => hp (hqp a hq)
      rw [List.takeWhile_cons_of_neg hp, List.filter_cons_of_neg hq, List.filter_nil, eq_comm,
        List.filter_eq_nil_iff]
      constructor
      · intro hnone
        refine ⟨fun b hb _ => hnone b hb, ?_⟩
        exact (List.pairwise_of_forall_mem_list fun _ _ b hb _ => hnone b hb)
      · exact fun h b hb => h.1 b hb hp

end Gpm.Lib
