import Mathlib.Data.List.Induction
import Mathlib.Data.Nat.Notation
import Mathlib.Logic.Function.Basic

/-! Ciphers that take a list of blocks one after another, each with a chain that the blocks in
front of it have left. -/

universe u v w

namespace Gpm.Lib.Modes

section Run

variable {σ : Type u} {α : Type v} {β : Type w} (step : σ → α → β × σ)

def run : σ → List α → List β
  | _, [] => []
  | s, a :: as => (step s a).1 :: run (step s a).2 as

def after (s : σ) (as : List α) : σ := as.foldl (fun s a => (step s a).2) s

@[simp] theorem run_nil (s : σ) : run step s [] = [] := rfl

@[simp] theorem run_cons (s : σ) (a : α) (as : List α) :
    run step s (a :: as) = (step s a).1 :: run step (step s a).2 as := rfl

@[simp] theorem after_nil (s : σ) : after step s [] = s := rfl

@[simp] theorem after_cons (s : σ) (a : α) (as : List α) :
    after step s (a :: as) = after step (step s a).2 as := rfl

@[simp] theorem length_run (s : σ) (as : List α) : (run step s as).length = as.length := by
  induction as generalizing s with
  | nil => rfl
  | cons a as ih => simp only [run_cons, List.length_cons, ih]

theorem run_append (s : σ) (as bs : List α) :
    run step s (as ++ bs) = run step s as ++ run step (after step s as) bs := by
  induction as generalizing s with
  | nil => rfl
  | cons a as ih => simp only [List.cons_append, run_cons, after_cons, ih]

theorem getElem?_run (s : σ) (as : List α) (i : ℕ) :
    (run step s as)[i]? = as[i]?.map fun a => (step (after step s (as.take i)) a).1 := by
  induction as generalizing s i with
  | nil => rfl
  | cons a as ih =>
    cases i with
    | zero => rfl
    | succ i => simp only [run_cons, List.getElem?_cons_succ, List.take_succ_cons, after_cons, ih]

variable {step}

theorem run_run {back : σ → β → α × σ} (hback : ∀ s a, back s (step s a).1 =
      (a, (step s a).2))
    (s : σ) (as : List α) : run back s (run step s as) = as := by
  induction as generalizing s with
  | nil => rfl
  | cons a as ih => simp only [run_cons, hback, ih]

theorem run_append_eq_iff (hchain : ∀ s s' a, (step s a).1 = (step s' a).1 → s = s') (s : σ)
    (as : List α) {bs : List α} (hne : bs ≠ []) :
    run step s (as ++ bs) = run step s as ++ run step s bs ↔ after step s as = s := by
  rw [run_append, List.append_cancel_left_eq]
  constructor
  · intro h
    obtain ⟨b, bs, rfl⟩ := List.exists_cons_of_ne_nil hne
    exact hchain _ _ b (List.cons.inj h).1
  · intro h
    rw [h]

theorem after_eq_getLastD {next : α → σ} (hnext : ∀ s a, (step s a).2 = next a) (s : σ)
    (as : List α) : after step s as = (as.map next).getLastD s := by
  induction as using List.reverseRecOn with
  | nil => rfl
  | append_singleton as a _ =>
    rw [after, List.foldl_append, List.foldl_cons, List.foldl_nil, hnext, List.map_append,
      List.map_singleton, List.getLastD_concat]

theorem after_eq_getLastD_run {step : σ → α → σ × σ}
    (hout : ∀ s a, (step s a).2 = (step s a).1)
    (s : σ) (as : List α) : after step s as = (run step s as).getLastD s := by
  induction as generalizing s with
  | nil => rfl
  | cons a as ih => rw [after_cons, run_cons, ih, List.getLastD_cons, hout]

end Run

section Cipher

variable {α : Type u} (op : α → α → α) (e d : α → α)

def cbc (s a : α) : α × α := (e (op a s), e (op a s))

def uncbc (s a : α) : α × α := (op (d a) s, a)

def cfb (s a : α) : α × α := (op a (e s), op a (e s))

def uncfb (s a : α) : α × α := (op a (e s), a)

variable {op e d}

theorem uncbc_cbc (hop : ∀ a b, op (op a b) b = a) (hde : ∀ a, d (e a) = a) (s a : α) :
    uncbc op d s (cbc op e s a).1 = (a, (cbc op e s a).2) := by
  simp only [uncbc, cbc, hde, hop]

theorem cbc_uncbc (hop : ∀ a b, op (op a b) b = a) (hed : ∀ a, e (d a) = a) (s a : α) :
    cbc op e s (uncbc op d s a).1 = (a, (uncbc op d s a).2) := by
  simp only [uncbc, cbc, hed, hop]

theorem uncfb_cfb (hop : ∀ a b, op (op a b) b = a) (s a : α) :
    uncfb op e s (cfb op e s a).1 = (a, (cfb op e s a).2) := by
  simp only [uncfb, cfb, hop]

theorem cfb_uncfb (hop : ∀ a b, op (op a b) b = a) (s a : α) :
    cfb op e s (uncfb op e s a).1 = (a, (uncfb op e s a).2) := by
  simp only [uncfb, cfb, hop]

theorem cbc_chain (he : Function.Injective e) (hinj : ∀ a, Function.Injective (op a))
    {s s' a : α}
    (h : (cbc op e s a).1 = (cbc op e s' a).1) : s = s' := hinj a (he h)

theorem uncbc_chain (hinj : ∀ a, Function.Injective (op a)) {s s' a : α}
    (h : (uncbc op d s a).1 = (uncbc op d s' a).1) : s = s' := hinj (d a) h

theorem cfb_chain (he : Function.Injective e) (hinj : ∀ a, Function.Injective (op a))
    {s s' a : α}
    (h : (cfb op e s a).1 = (cfb op e s' a).1) : s = s' := he (hinj a h)

theorem uncfb_chain (he : Function.Injective e) (hinj : ∀ a, Function.Injective (op a))
    {s s' a : α}
    (h : (uncfb op e s a).1 = (uncfb op e s' a).1) : s = s' := he (hinj a h)

end Cipher

end Gpm.Lib.Modes
