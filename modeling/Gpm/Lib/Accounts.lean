import Mathlib.Algebra.BigOperators.Group.Finset.Basic

/-! The total over a finite set of accounts when one or two of them change. -/

universe u

namespace Gpm.Lib

variable {α : Type u} [DecidableEq α] {s : Finset α} {f g : α → Nat} {a b : α}

theorem sum_change (ha : a ∈ s) (h : ∀ x, x ≠ a → g x = f x) :
    (∑ x ∈ s, g x) + f a = (∑ x ∈ s, f x) + g a := by
  have hrest : ∑ x ∈ s.erase a, g x = ∑ x ∈ s.erase a, f x := by
    apply Finset.sum_congr rfl
    intro x hx
    exact h x (Finset.ne_of_mem_erase hx)
  rw [← Finset.add_sum_erase s g ha, ← Finset.add_sum_erase s f ha, hrest]
  omega

theorem sum_change₂ (ha : a ∈ s) (hb : b ∈ s) (hab : a ≠ b)
    (h : ∀ x, x ≠ a → x ≠ b → g x = f x) :
    (∑ x ∈ s, g x) + f a + f b = (∑ x ∈ s, f x) + g a + g b := by
  have hfirst := sum_change (f := f) (g := Function.update f a (g a)) ha
    (fun x hx => Function.update_of_ne hx _ _)
  have hsecond := sum_change (f := Function.update f a (g a)) (g := g) hb (by
    intro x hx
    by_cases hxa : x = a
    · rw [hxa, Function.update_self]
    · rw [Function.update_of_ne hxa]
      exact h x hxa hx)
  rw [Function.update_self] at hfirst
  rw [Function.update_of_ne hab.symm] at hsecond
  omega

theorem le_sum (ha : a ∈ s) : f a ≤ ∑ x ∈ s, f x := by
  rw [← Finset.add_sum_erase s f ha]
  exact Nat.le_add_right _ _

theorem add_le_sum (ha : a ∈ s) (hb : b ∈ s) (hab : a ≠ b) :
    f a + f b ≤ ∑ x ∈ s, f x := by
  rw [← Finset.add_sum_erase s f ha]
  exact Nat.add_le_add_left (le_sum (Finset.mem_erase.mpr ⟨hab.symm, hb⟩)) _

end Gpm.Lib
