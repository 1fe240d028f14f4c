import Mathlib

/-!
# Runs and loops

`Reachable init step` is the set of states of the runs that start in `init` and take `step`s. A
property that holds at the start and that every step keeps holds in every reachable state
(`Reachable.invariant`). `History init step` also says which labelled steps a run has taken; a
measure that every step lowers bounds their number (`History.length_le`). `foldlM_inv` is the
invariant rule for a loop over a list: its invariant also speaks about the elements visited so far.
-/

namespace Transition

variable {σ : Type} {init : σ → Prop} {step : σ → σ → Prop}

inductive Reachable (init : σ → Prop) (step : σ → σ → Prop) : σ → Prop
  | start {s : σ} (h : init s) : Reachable init step s
  | next {s t : σ} (hs : Reachable init step s) (h : step s t) : Reachable init step t

theorem Reachable.invariant (inv : σ → Prop) (hinit : ∀ s, init s → inv s)
    (hstep : ∀ s t, inv s → step s t → inv t) {s : σ} (h : Reachable init step s) : inv s := by
  induction h with
  | start h => exact hinit _ h
  | next _ h ih => exact hstep _ _ ih h

/-- Runs can be joined. -/
theorem Reachable.trans {s t : σ} (hs : Reachable init step s)
    (ht : Reachable (· = s) step t) : Reachable init step t := by
  induction ht with
  | start h => exact h ▸ hs
  | next _ h ih => exact .next ih h

/-- More steps reach more states. -/
theorem Reachable.mono {init' : σ → Prop} {step' : σ → σ → Prop} (hi : ∀ s, init s → init' s)
    (hs : ∀ s t, step s t → step' s t) {s : σ} (h : Reachable init step s) :
    Reachable init' step' s := by
  induction h with
  | start h => exact .start (hi _ h)
  | next _ h ih => exact .next ih (hs _ _ h)

/-! ## Histories -/

/-- The runs with the labels of their steps, first to last. -/
inductive History {ℓ : Type} (init : σ → Prop) (step : σ → ℓ → σ → Prop) : List ℓ → σ → Prop
  | start {s : σ} (h : init s) : History init step [] s
  | next {l : List ℓ} {s t : σ} {a : ℓ} (hs : History init step l s) (h : step s a t) :
      History init step (l ++ [a]) t

section History

variable {ℓ : Type} {step : σ → ℓ → σ → Prop} {l : List ℓ} {s : σ}

theorem History.invariant (inv : List ℓ → σ → Prop) (hinit : ∀ s, init s → inv [] s)
    (hstep : ∀ l s a t, inv l s → step s a t → inv (l ++ [a]) t) (h : History init step l s) :
    inv l s := by
  induction h with
  | start h => exact hinit _ h
  | next _ h ih => exact hstep _ _ _ _ ih h

/-- A measure that every step lowers bounds the length of the runs. -/
theorem History.length_le (μ : σ → ℕ) {n : ℕ} (hinit : ∀ s, init s → μ s ≤ n)
    (hstep : ∀ s a t, step s a t → μ t < μ s) (h : History init step l s) : l.length ≤ n := by
  have hbound : l.length + μ s ≤ n := by
    refine h.invariant (fun l s => l.length + μ s ≤ n) (fun s hs => ?_) fun l s a t hl hst => ?_
    · show 0 + μ s ≤ n
      rw [Nat.zero_add]
      exact hinit s hs
    · have hlt := hstep s a t hst
      rw [List.length_append, List.length_singleton]
      omega
  omega

end History

/-! ## Loops -/

/-- A loop whose body returns and keeps `inv`. -/
theorem foldlM_inv {ε α β : Type} {f : β → α → Except ε β} (inv : List α → β → Prop) (l : List α)
    (hstep : ∀ done a rest b, l = done ++ a :: rest → inv done b →
      ∃ b', f b a = .ok b' ∧ inv (done ++ [a]) b') (b : β) (h₀ : inv [] b) :
    ∃ b', l.foldlM f b = .ok b' ∧ inv l b' := by
  have hloop : ∀ rest done b, l = done ++ rest → inv done b →
      ∃ b', rest.foldlM f b = .ok b' ∧ inv l b' := by
    intro rest
    induction rest with
    | nil =>
      intro done b hl h
      rw [List.append_nil] at hl
      exact ⟨b, rfl, hl ▸ h⟩
    | cons a rest ih =>
      intro done b hl h
      obtain ⟨b₁, h₁, hinv₁⟩ := hstep done a rest b hl h
      obtain ⟨b₂, h₂, hinv₂⟩ := ih (done ++ [a]) b₁ (by rw [hl, List.append_assoc]; rfl) hinv₁
      refine ⟨b₂, ?_, hinv₂⟩
      rw [List.foldlM_cons, h₁]
      exact h₂
  exact hloop l [] b rfl h₀

end Transition
