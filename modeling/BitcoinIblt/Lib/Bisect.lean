import Mathlib

/-!
# Bisection with a probe that need not be monotone

A window of numbers is halved: the probe of the middle succeeds and the upper half goes, or fails
and the lower half goes with the middle. The last success is kept, and the search may give up
early.

If success is not upward closed, there need not be a least success to be found. What the search
still ends at is a border: the number above the window was a success, the number below it a failure
(`Bracket`), whatever the others are. A search that finds nothing has probed only the failures on
one path, and for a window that ends at a power of two these are `2 ^ n - 2 ^ j`
(`search_none_iff`).
-/

namespace Bisect

variable {ε α : Type}

/-- What is left of the search, and the last success. -/
structure Window (α : Type) where
  lo : ℕ
  hi : ℕ
  le : lo ≤ hi
  found : Option α

namespace Window

variable (w : Window α)

def mid : ℕ := (w.lo + w.hi) / 2

theorem lo_le_mid : w.lo ≤ w.mid := by
  have hle := w.le
  unfold mid
  omega

variable {w}

theorem mid_lt (h : w.lo ≠ w.hi) : w.mid < w.hi := by
  have hle := w.le
  unfold mid
  omega

variable (w)

/-- The probe of the middle was a success. -/
def lower (a : α) : Window α := ⟨w.lo, w.mid, w.lo_le_mid, some a⟩

/-- The probe of the middle was a failure. -/
def upper (h : w.lo ≠ w.hi) : Window α := ⟨w.mid + 1, w.hi, mid_lt h, w.found⟩

variable {w} (h : w.lo ≠ w.hi)

include h

theorem lower_lt (a : α) : (w.lower a).hi - (w.lower a).lo < w.hi - w.lo := by
  have hmid := mid_lt h
  have hle := w.lo_le_mid
  show w.mid - w.lo < w.hi - w.lo
  omega

theorem upper_lt : (w.upper h).hi - (w.upper h).lo < w.hi - w.lo := by
  have hmid := mid_lt h
  have hle := w.lo_le_mid
  show w.hi - (w.mid + 1) < w.hi - w.lo
  omega

end Window

variable (probe : ℕ → Except ε (Option α)) (giveUp : ℕ → Bool)

/-- The search from a window. -/
def search (w : Window α) : Except ε (Window α) :=
  if h : w.lo = w.hi then .ok w
  else do
    match ← probe w.mid with
    | some a => search (w.lower a)
    | none => if giveUp (w.upper h).lo then return w.upper h else search (w.upper h)
termination_by w.hi - w.lo
decreasing_by
  · exact Window.lower_lt h a
  · exact Window.upper_lt h

variable {probe} {giveUp}

/-! ## One turn -/

theorem search_eq_some {w : Window α} (h : w.lo ≠ w.hi) {a : α} (hp : probe w.mid = .ok (some a)) :
    search probe giveUp w = search probe giveUp (w.lower a) := by
  rw [search, dif_neg h, hp]
  rfl

theorem search_eq_none {w : Window α} (h : w.lo ≠ w.hi) (hp : probe w.mid = .ok none) :
    search probe giveUp w =
      if giveUp (w.upper h).lo then .ok (w.upper h) else search probe giveUp (w.upper h) := by
  rw [search, dif_neg h, hp]
  rfl

theorem search_eq_error {w : Window α} (h : w.lo ≠ w.hi) {e : ε} (hp : probe w.mid = .error e) :
    search probe giveUp w = .error e := by
  rw [search, dif_neg h, hp]
  rfl

variable (giveUp) in
/-- The search returns if the probes do. -/
theorem search_returns {w : Window α} (h : ∀ n, w.lo ≤ n → n < w.hi → ∃ r, probe n = .ok r) :
    ∃ w', search probe giveUp w = .ok w' := by
  induction hn : w.hi - w.lo using Nat.strong_induction_on generalizing w with
  | _ n ih =>
    subst hn
    by_cases hne : w.lo = w.hi
    · exact ⟨w, by rw [search, dif_pos hne]⟩
    have hlo := w.lo_le_mid
    have hhi := Window.mid_lt hne
    obtain ⟨r, hr⟩ := h w.mid hlo hhi
    cases r with
    | some a =>
      rw [search_eq_some hne hr]
      exact ih _ (Window.lower_lt hne a)
        (fun n hn hn' => h n hn (lt_trans hn' hhi)) rfl
    | none =>
      rw [search_eq_none hne hr]
      split_ifs
      · exact ⟨_, rfl⟩
      · exact ih _ (Window.upper_lt hne)
          (fun n hn hn' => h n (le_trans hlo (Nat.le_of_succ_le hn)) hn') rfl

/-! ## The border -/

/-- A window that the search can come to from `w₀`: the number below it was a failure and the number
above it a success, except at the ends of `w₀`. -/
structure Bracket (probe : ℕ → Except ε (Option α)) (w₀ w : Window α) : Prop where
  lo_le : w₀.lo ≤ w.lo
  hi_le : w.hi ≤ w₀.hi
  below : w.lo = w₀.lo ∨ w₀.lo < w.lo ∧ probe (w.lo - 1) = .ok none
  above : (w.hi = w₀.hi ∧ w.found = w₀.found) ∨
    w.hi < w₀.hi ∧ ∃ a, probe w.hi = .ok (some a) ∧ w.found = some a

theorem Bracket.start (w : Window α) : Bracket probe w w :=
  ⟨le_refl _, le_refl _, Or.inl rfl, Or.inl ⟨rfl, rfl⟩⟩

section Turn

variable {w₀ w : Window α} (h : Bracket probe w₀ w)

include h

theorem Bracket.lower {a : α} (hne : w.lo ≠ w.hi) (hp : probe w.mid = .ok (some a)) :
    Bracket probe w₀ (w.lower a) := by
  have hmid : w.mid < w₀.hi := lt_of_lt_of_le (Window.mid_lt hne) h.hi_le
  exact ⟨h.lo_le, hmid.le, h.below, Or.inr ⟨hmid, a, hp, rfl⟩⟩

theorem Bracket.upper (hne : w.lo ≠ w.hi) (hp : probe w.mid = .ok none) :
    Bracket probe w₀ (w.upper hne) := by
  have hlo : w₀.lo < w.mid + 1 :=
    Nat.lt_succ_of_le (le_trans h.lo_le (w.lo_le_mid))
  exact ⟨hlo.le, h.hi_le, Or.inr ⟨hlo, hp⟩, h.above⟩

end Turn

/-- The search ends at a border, unless it gives up. -/
theorem search_bracket {w₀ w w' : Window α} (h : Bracket probe w₀ w)
    (hrun : search probe giveUp w = .ok w') :
    Bracket probe w₀ w' ∧ (w'.lo = w'.hi ∨ giveUp w'.lo = true) := by
  induction hn : w.hi - w.lo using Nat.strong_induction_on generalizing w with
  | _ n ih =>
    subst hn
    by_cases hne : w.lo = w.hi
    · rw [search, dif_pos hne] at hrun
      cases hrun
      exact ⟨h, Or.inl hne⟩
    cases hp : probe w.mid with
    | error e =>
      rw [search_eq_error hne hp] at hrun
      cases hrun
    | ok r =>
      cases r with
      | some a =>
        rw [search_eq_some hne hp] at hrun
        exact ih _ (Window.lower_lt hne a) (h.lower hne hp) hrun rfl
      | none =>
        rw [search_eq_none hne hp] at hrun
        split_ifs at hrun with hstop
        · cases hrun
          exact ⟨h.upper hne hp, Or.inr hstop⟩
        · exact ih _ (Window.upper_lt hne) (h.upper hne hp) hrun rfl

/-! ## Nothing is found -/

/-- What has been found stays found. -/
theorem search_found {w w' : Window α} (hfound : w.found ≠ none)
    (hrun : search probe giveUp w = .ok w') : w'.found ≠ none := by
  rcases (search_bracket (Bracket.start w) hrun).1.above with ⟨-, h⟩ | ⟨-, a, -, h⟩
  · rw [h]
    exact hfound
  · rw [h]
    exact Option.some_ne_none a

/-- A turn that does not fail leaves something found; one that fails goes on with the upper half. -/
theorem search_turn {w w' : Window α} (hne : w.lo ≠ w.hi)
    (hrun : search probe giveUp w = .ok w') :
    (probe w.mid ≠ .ok none ∧ w'.found ≠ none) ∨
      probe w.mid = .ok none ∧
        (if giveUp (w.upper hne).lo then .ok (w.upper hne)
          else search probe giveUp (w.upper hne)) = .ok w' := by
  cases hp : probe w.mid with
  | error e =>
    rw [search_eq_error hne hp] at hrun
    cases hrun
  | ok r =>
    cases r with
    | some a =>
      rw [search_eq_some hne hp] at hrun
      exact Or.inl ⟨by simp, search_found (Option.some_ne_none a) hrun⟩
    | none =>
      rw [search_eq_none hne hp] at hrun
      exact Or.inr ⟨rfl, hrun⟩

/-- The middle of a window that ends at a power of two and is one less than another one long. -/
theorem Window.mid_pow {w : Window α} {n k : ℕ} (hk : k < n) (hlo : w.lo = 2 ^ n - 2 ^ (k + 1) + 1)
    (hhi : w.hi = 2 ^ n) : w.mid = 2 ^ n - 2 ^ k := by
  have hpow : 2 ^ (k + 1) ≤ 2 ^ n := Nat.pow_le_pow_right (by omega) hk
  unfold mid
  rw [hlo, hhi]
  omega

/-- The path of failures: with a window that ends at `2 ^ n`, and giving up at `2 ^ n - 1`. -/
theorem search_none_iff {n k : ℕ} (hone : 1 ≤ k) (hk : k < n) {w w' : Window α}
    (hlo : w.lo = 2 ^ n - 2 ^ (k + 1) + 1) (hhi : w.hi = 2 ^ n) (hfound : w.found = none)
    (hrun : search probe (fun lo => lo = 2 ^ n - 1) w = .ok w') :
    w'.found = none ↔ ∀ j, 1 ≤ j → j ≤ k → probe (2 ^ n - 2 ^ j) = .ok none := by
  induction k, hone using Nat.le_induction generalizing w with
  | base =>
    have hmid := Window.mid_pow hk hlo hhi
    have hfour : 2 ^ (1 + 1) ≤ 2 ^ n := Nat.pow_le_pow_right (by omega) hk
    have hne : w.lo ≠ w.hi := by omega
    have honly : (∀ j, 1 ≤ j → j ≤ 1 → probe (2 ^ n - 2 ^ j) = .ok none) ↔
        probe w.mid = .ok none := by
      rw [hmid]
      exact ⟨fun h => h 1 le_rfl le_rfl, fun h j h₁ h₂ => le_antisymm h₁ h₂ ▸ h⟩
    rw [honly]
    rcases search_turn hne hrun with ⟨hp, hsome⟩ | ⟨hp, hrun⟩
    · exact iff_of_false hsome hp
    · -- the search gives up here
      have hstop : (w.upper hne).lo = 2 ^ n - 1 := by
        show w.mid + 1 = 2 ^ n - 1
        omega
      rw [hstop, if_pos (decide_eq_true rfl)] at hrun
      cases hrun
      exact iff_of_true hfound hp
  | succ k hone ih =>
    have hmid := Window.mid_pow hk hlo hhi
    have hpow : 2 ^ (k + 1) ≤ 2 ^ n := Nat.pow_le_pow_right (by omega) hk.le
    have htwo : 2 ^ 2 ≤ 2 ^ (k + 1) := Nat.pow_le_pow_right (by omega) (by omega)
    have hne : w.lo ≠ w.hi := by omega
    have hsplit : (∀ j, 1 ≤ j → j ≤ k + 1 → probe (2 ^ n - 2 ^ j) = .ok none) ↔
        probe w.mid = .ok none ∧ ∀ j, 1 ≤ j → j ≤ k → probe (2 ^ n - 2 ^ j) = .ok none := by
      rw [hmid]
      refine ⟨fun h => ⟨h _ (by omega) le_rfl, fun j h₁ h₂ => h j h₁ (by omega)⟩,
        fun h j h₁ h₂ => ?_⟩
      rcases Nat.le_succ_iff.mp h₂ with h₂ | rfl
      · exact h.2 j h₁ h₂
      · exact h.1
    rw [hsplit]
    rcases search_turn hne hrun with ⟨hp, hsome⟩ | ⟨hp, hrun⟩
    · exact iff_of_false hsome fun h => hp h.1
    · have hlo' : (w.upper hne).lo = 2 ^ n - 2 ^ (k + 1) + 1 := by
        show w.mid + 1 = _
        rw [hmid]
      have hgo : ¬ decide ((w.upper hne).lo = 2 ^ n - 1) = true := by
        rw [decide_eq_true_eq]
        omega
      rw [if_neg hgo] at hrun
      rw [ih (by omega) hlo' hhi hfound hrun]
      exact ⟨fun h => ⟨hp, h⟩, fun h => h.2⟩

end Bisect
