/-! Ciphers whose rounds change one half of a block by a function of the other half. -/

universe u v

namespace Gpm.Lib.Feistel

variable {κ : Type u} {α : Type v}

def round (op : α → α → α) (f : κ → α → α) (s : α × α) (k : κ) :
    α × α := (op s.2 (f k s.1), s.1)

def rounds (op : α → α → α) (f : κ → α → α) (ks : List κ)
    (s : α × α) : α × α :=
  ks.foldl (round op f) s

variable {op : α → α → α} {f : κ → α → α}

theorem round_swap_round (hop : ∀ a b, op (op a b) b = a) (s : α × α) (k : κ) :
    round op f (round op f s k).swap k = s.swap := by
  obtain ⟨l, r⟩ := s
  simp only [round, Prod.swap_prod_mk, hop]

theorem rounds_reverse_swap (hop : ∀ a b, op (op a b) b = a) (ks : List κ) (s : α × α) :
    rounds op f ks.reverse (rounds op f ks s).swap = s.swap := by
  induction ks generalizing s with
  | nil => rfl
  | cons k ks ih =>
    have hrest := ih (round op f s k)
    unfold rounds at hrest ⊢
    rw [List.foldl_cons, List.reverse_cons, List.foldl_append, hrest, List.foldl_cons,
      List.foldl_nil, round_swap_round hop]

end Gpm.Lib.Feistel
