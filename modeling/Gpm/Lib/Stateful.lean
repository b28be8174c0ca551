import Mathlib.Data.List.Forall2

/-! Reasoning about computations which may fail and whose state survives a failure. -/

namespace Gpm.Lib

variable {ε σ ι α β : Type}

def finalState : EStateM.Result ε σ α → σ
  | .ok _ s => s
  | .error _ s => s

def returned : EStateM.Result ε σ α → Option α
  | .ok a _ => some a
  | .error _ _ => none

def outcome : EStateM.Result ε σ α → Except ε α
  | .ok a _ => .ok a
  | .error e _ => .error e

theorem bind_ok {x : EStateM ε σ α} {f : α → EStateM ε σ β} {s s' : σ} {a : α}
    (h : x s = .ok a s') : (x >>= f) s = f a s' := by
  simp only [bind, EStateM.bind, h]

theorem bind_error {x : EStateM ε σ α} {f : α → EStateM ε σ β} {s s' : σ} {e : ε}
    (h : x s = .error e s') : (x >>= f) s = .error e s' := by
  simp only [bind, EStateM.bind, h]

theorem outcome_bind_error {x : EStateM ε σ α} {f : α → EStateM ε σ β} {s : σ} {e : ε}
    (h : outcome (x s) = .error e) : outcome ((x >>= f) s) = .error e := by
  cases hx : x s with
  | ok a s' =>
    rw [hx] at h
    cases h
  | error e' s' =>
    rw [hx] at h
    rw [bind_error hx]
    cases h
    rfl

theorem of_bind_ok {x : EStateM ε σ α} {f : α → EStateM ε σ β} {s s'' : σ} {b : β}
    (h : (x >>= f) s = .ok b s'') : ∃ a s', x s = .ok a s' ∧ f a s' = .ok b s'' := by
  cases hx : x s with
  | ok a s' => exact ⟨a, s', rfl, by rwa [bind_ok hx] at h⟩
  | error e s' => rw [bind_error hx] at h; cases h

theorem discard_ok {x : EStateM ε σ α} {s s' : σ} {a : α} (h : x s = .ok a s') :
    Functor.discard x s = .ok () s' := by
  simp only [Functor.discard, Functor.mapConst, EStateM.map, Function.comp_apply, h]

theorem of_discard_ok {x : EStateM ε σ α} {s s' : σ} {u : Unit}
    (h : Functor.discard x s = .ok u s') : ∃ a, x s = .ok a s' := by
  cases hx : x s with
  | ok a s'' =>
    simp only [Functor.discard, Functor.mapConst, EStateM.map, Function.comp_apply, hx,
      EStateM.Result.ok.injEq] at h
    exact ⟨a, by rw [h.2]⟩
  | error e s'' =>
    simp only [Functor.discard, Functor.mapConst, EStateM.map, Function.comp_apply, hx,
      reduceCtorEq] at h

@[simp] theorem finalState_discard (x : EStateM ε σ α) (s : σ) :
    finalState (Functor.discard x s) = finalState (x s) := by
  simp only [Functor.discard, Functor.mapConst, EStateM.map, Function.comp_apply]
  cases x s <;> rfl

theorem get_bind (f : σ → EStateM ε σ β) (s : σ) : (get >>= f) s = f s s := rfl

theorem modify_bind (f : σ → σ) (g : PUnit → EStateM ε σ β) (s : σ) :
    (modify f >>= g) s = g ⟨⟩ (f s) := rfl

theorem of_bind_error {x : EStateM ε σ α} {f : α → EStateM ε σ β} {s s'' : σ} {e : ε}
    (h : (x >>= f) s = .error e s'') :
    x s = .error e s'' ∨ ∃ a s', x s = .ok a s' ∧ f a s' = .error e s'' := by
  cases hx : x s with
  | ok a s' => exact Or.inr ⟨a, s', rfl, by rwa [bind_ok hx] at h⟩
  | error e' s' =>
    rw [bind_error hx, EStateM.Result.error.injEq] at h
    exact Or.inl (by rw [h.1, h.2])

theorem of_discard_error {x : EStateM ε σ α} {s s' : σ} {e : ε}
    (h : Functor.discard x s = .error e s') : x s = .error e s' := by
  cases hx : x s with
  | ok a s'' =>
    simp only [Functor.discard, Functor.mapConst, EStateM.map, Function.comp_apply, hx,
      reduceCtorEq] at h
  | error e' s'' =>
    simp only [Functor.discard, Functor.mapConst, EStateM.map, Function.comp_apply, hx,
      EStateM.Result.error.injEq] at h
    rw [h.1, h.2]

theorem eq_ok_of_returned {r : EStateM.Result ε σ α} {a : α} (h : returned r = some a) :
    r = .ok a (finalState r) := by
  cases r with
  | ok b s => rw [Option.some.inj h, finalState]
  | error e s => cases h

def Keeps (R : σ → σ → Prop) (x : EStateM ε σ α) : Prop := ∀ s, R s (finalState (x s))

namespace Keeps

variable {R : σ → σ → Prop}

theorem pure (hr : ∀ s, R s s) (a : α) : Keeps R (Pure.pure a : EStateM ε σ α) := hr

theorem throw (hr : ∀ s, R s s) (e : ε) : Keeps R (EStateM.throw e : EStateM ε σ α) := hr

theorem modify {f : σ → σ} (h : ∀ s, R s (f s)) :
    Keeps R (modifyGet fun s => ((), f s) : EStateM ε σ PUnit) := h

theorem bind (ht : ∀ {s s' s''}, R s s' → R s' s'' → R s s'') {x : EStateM ε σ α}
    {f : α → EStateM ε σ β} (hx : Keeps R x) (hf : ∀ a, Keeps R (f a)) :
    Keeps R (x >>= f) := by
  intro s
  have h := hx s
  cases hs : x s with
  | ok a s' =>
    rw [bind_ok hs]
    rw [hs] at h
    exact ht h (hf a s')
  | error e s' =>
    rw [bind_error hs]
    rwa [hs] at h

theorem discard {x : EStateM ε σ α} (hx : Keeps R x) : Keeps R (Functor.discard x) := by
  intro s
  rw [finalState_discard]
  exact hx s

theorem get_bind {f : σ → EStateM ε σ β} (hf : ∀ s, Keeps R (f s)) : Keeps R (get >>= f) :=
  fun s => hf s s

end Keeps

/-- Events observed on the state: a run of events leads from one state to another. -/
structure Trace (σ ι : Type) where
  leads : List ι → σ → σ → Prop
  nil : ∀ s, leads [] s s
  append : ∀ {es fs s s' s''}, leads es s s' → leads fs s' s'' → leads (es ++ fs) s s''

def Runs (T : Trace σ ι) (x : EStateM ε σ α) (s : σ) (a : α) (es : List ι) : Prop :=
  ∃ s', x s = .ok a s' ∧ T.leads es s s'

namespace Runs

variable {T : Trace σ ι} {s : σ} {a : α} {b : β} {es fs : List ι}

theorem pure : Runs (ε := ε) T (pure a) s a [] := ⟨s, rfl, T.nil s⟩

theorem bind {x : EStateM ε σ α} {f : α → EStateM ε σ β} (hx : Runs T x s a es)
    (hf : ∀ s', T.leads es s s' → Runs T (f a) s' b fs) : Runs T (x >>= f) s b (es ++ fs) := by
  obtain ⟨s', hs, hl⟩ := hx
  obtain ⟨s'', hs', hl'⟩ := hf s' hl
  exact ⟨s'', (bind_ok hs).trans hs', T.append hl hl'⟩

theorem bind_nil {x : EStateM ε σ α} {f : α → EStateM ε σ β} (hx : Runs T x s a [])
    (hf : ∀ s', T.leads [] s s' → Runs T (f a) s' b es) : Runs T (x >>= f) s b es :=
  hx.bind hf

theorem bind_pure {x : EStateM ε σ α} {f : α → EStateM ε σ β} (hx : Runs T x s a es)
    (hf : f a = Pure.pure b) : Runs T (x >>= f) s b es := by
  rw [← List.append_nil es]
  apply hx.bind
  intro s' _
  rw [hf]
  exact Runs.pure

theorem get_bind {f : σ → EStateM ε σ β} (hf : Runs T (f s) s b es) :
    Runs T (get >>= f) s b es := hf

theorem discard {x : EStateM ε σ α} (hx : Runs T x s a es) :
    Runs T (Functor.discard x) s () es := by
  obtain ⟨s', hs, hl⟩ := hx
  exact ⟨s', by simp [Functor.discard, Functor.mapConst, EStateM.map, hs], hl⟩

theorem mapM {f : α → EStateM ε σ β} {l : List α} {l' : List β}
    (h : List.Forall₂ (fun a b => ∀ s', T.leads [] s s' → Runs T (f a) s' b []) l l') :
    ∀ s', T.leads [] s s' → Runs T (l.mapM f) s' l' [] := by
  induction h with
  | nil =>
    intro s' _
    rw [List.mapM_nil]
    exact Runs.pure
  | cons hab _ ih =>
    intro s' hs
    rw [List.mapM_cons]
    apply (hab s' hs).bind_nil
    intro s'' hs'
    exact (ih s'' (T.append hs hs')).bind_pure rfl

theorem outcome_eq {x : EStateM ε σ α} (hx : Runs T x s a es) : outcome (x s) = .ok a := by
  obtain ⟨s', hs, -⟩ := hx
  rw [hs]
  rfl

theorem leads {x : EStateM ε σ α} (hx : Runs T x s a es) : T.leads es s (finalState (x s)) := by
  obtain ⟨s', hs, hl⟩ := hx
  rwa [hs]

theorem leads_bind {x : EStateM ε σ α} {f : α → EStateM ε σ β} (hx : Runs T x s a es)
    (hf : ∀ s', T.leads es s s' → T.leads fs s' (finalState (f a s'))) :
    T.leads (es ++ fs) s (finalState ((x >>= f) s)) := by
  obtain ⟨s', hs, hl⟩ := hx
  rw [bind_ok hs]
  exact T.append hl (hf s' hl)

theorem leads_bind_nil {x : EStateM ε σ α} {f : α → EStateM ε σ β} (hx : Runs T x s a [])
    (hf : ∀ s', T.leads [] s s' → T.leads es s' (finalState (f a s'))) :
    T.leads es s (finalState ((x >>= f) s)) :=
  hx.leads_bind hf

end Runs

end Gpm.Lib
