import Mathlib

/-!
# A stateful program in lockstep with a pure one

The state of a `Stateful` program outlives an error: what it has done up to there stays done.
`EndsAs R E x s y` compares its run from `s` with a result `y` of a program without that state: both
return, with results and a final state in `R`, or both stop with the same error in a state in `E`.
The rules follow the two programs: `pure`, `throw`, `bind`, and `stutter` for a part of the stateful
program that has no counterpart.
-/

namespace Lockstep

variable {ε σ α β γ δ : Type}

/-- A program with a state that an error leaves as it is. -/
abbrev Stateful (ε σ α : Type) := ExceptT ε (StateM σ) α

/-- How `x` ends when it starts in `s`, and the state it leaves. -/
def Stateful.from (x : Stateful ε σ α) (s : σ) : Except ε α × σ := StateT.run (ExceptT.run x) s

/-- From `s`, `x` ends as `y` does. -/
def EndsAs (R : α → β → σ → Prop) (E : σ → Prop) (x : Stateful ε σ α) (s : σ)
    (y : Except ε β) : Prop :=
  (∃ a b t, x.from s = (.ok a, t) ∧ y = .ok b ∧ R a b t) ∨
    ∃ e t, x.from s = (.error e, t) ∧ y = .error e ∧ E t

theorem from_bind_ok {x : Stateful ε σ α} {f : α → Stateful ε σ γ} {s t : σ} {a : α}
    (h : x.from s = (.ok a, t)) : (x >>= f : Stateful ε σ γ).from s = (f a).from t := by
  rw [Stateful.from] at h ⊢
  rw [ExceptT.run_bind, StateT.run_bind, h]
  rfl

theorem from_bind_error {x : Stateful ε σ α} {f : α → Stateful ε σ γ} {s t : σ} {e : ε}
    (h : x.from s = (.error e, t)) : (x >>= f : Stateful ε σ γ).from s = (.error e, t) := by
  rw [Stateful.from] at h ⊢
  rw [ExceptT.run_bind, StateT.run_bind, h]
  rfl

namespace EndsAs

variable {R : α → β → σ → Prop} {R' : γ → δ → σ → Prop} {E : σ → Prop} {x : Stateful ε σ α} {s : σ}
  {y : Except ε β}

theorem pure {a : α} {b : β} (h : R a b s) :
    EndsAs R E (Pure.pure a : Stateful ε σ α) s (.ok b) :=
  Or.inl ⟨a, b, s, rfl, rfl, h⟩

theorem throw {e : ε} (h : E s) :
    EndsAs R E (MonadExcept.throw e : Stateful ε σ α) s (.error e) :=
  Or.inr ⟨e, s, rfl, rfl, h⟩

/-- A change of the state alone. -/
theorem modifyGet {f : σ → α × σ} {b : β} (h : R (f s).1 b (f s).2) :
    EndsAs R E (MonadStateOf.modifyGet f : Stateful ε σ α) s (.ok b) :=
  Or.inl ⟨(f s).1, b, (f s).2, rfl, rfl, h⟩


/-- A part that both programs share. -/
theorem shared {y : Except ε α} (h : E s) :
    EndsAs (fun a b t => a = b ∧ t = s) E (liftExcept y : Stateful ε σ α) s y := by
  cases y with
  | ok a => exact pure ⟨rfl, rfl⟩
  | error e => exact throw h

/-- The results in the relation are those returned. -/
theorem returned (h : EndsAs R E x s y) : EndsAs (fun a b t => y = .ok b ∧ R a b t) E x s y := by
  rcases h with ⟨a, b, t, hx, hy, h⟩ | h
  · exact Or.inl ⟨a, b, t, hx, hy, hy, h⟩
  · exact Or.inr h

theorem bind {f : α → Stateful ε σ γ} {g : β → Except ε δ} (h : EndsAs R E x s y)
    (hf : ∀ a b t, R a b t → EndsAs R' E (f a) t (g b)) :
    EndsAs R' E (x >>= f) s (y >>= g) := by
  rcases h with ⟨a, b, t, hx, rfl, h⟩ | ⟨e, t, hx, rfl, h⟩
  · have hstep := hf a b t h
    rw [EndsAs, ← from_bind_ok (f := f) hx] at hstep
    exact hstep
  · exact Or.inr ⟨e, t, from_bind_error hx, rfl, h⟩

/-- A part that returns and has no counterpart. -/
theorem stutter {f : α → Stateful ε σ γ} {t : σ} {a : α} {z : Except ε δ}
    (hx : x.from s = (.ok a, t)) (h : EndsAs R' E (f a) t z) : EndsAs R' E (x >>= f) s z := by
  rw [EndsAs, ← from_bind_ok (f := f) hx] at h
  exact h

end EndsAs

end Lockstep
