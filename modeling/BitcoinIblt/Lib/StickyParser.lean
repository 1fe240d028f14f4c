import Mathlib

/-!
# Parsers with a sticky failure

A parser reads from a cursor, the list of unread symbols. When it runs short it does not stop: the
cursor becomes `none` (NULL), the values read from there on are arbitrary, and the caller looks at
the cursor once, at the end. `Reads p a enc` says that `p` reads back exactly the encoding `enc`
of `a`: it leaves whatever follows `enc`, and it runs short on every proper prefix of `enc`.
`Reads.bind` composes such facts as long as the later parser is `Sticky`.
-/

namespace StickyParser

variable {ε β α γ : Type}

/-- The unread symbols, or `none` once a read ran short. -/
abbrev Cursor (β : Type) := Option (List β)

/-- A reader of a cursor that may also stop with an error. -/
abbrev Parser (ε β α : Type) := StateT (Cursor β) (Except ε) α

/-- On a cursor that has run short, `p` returns and leaves it so. -/
def Sticky (p : Parser ε β α) : Prop := ∃ a, p none = .ok (a, none)

/-- `p` reads `a` off its encoding `enc`, and runs short on every proper prefix of it. -/
structure Reads (p : Parser ε β α) (a : α) (enc : List β) : Prop where
  full : ∀ rest, p (some (enc ++ rest)) = .ok (a, some rest)
  short : ∀ pre, pre <+: enc → pre ≠ enc → ∃ a', p (some pre) = .ok (a', none)

theorem bind_apply (p : Parser ε β α) (f : α → Parser ε β γ) (c : Cursor β) :
    (p >>= f) c = (p c).bind fun r => f r.1 r.2 := rfl

theorem bind_of_ok {p : Parser ε β α} {c c' : Cursor β} {a : α} (h : p c = .ok (a, c'))
    (f : α → Parser ε β γ) : (p >>= f) c = f a c' := by
  rw [bind_apply, h]
  rfl

theorem bind_of_error {p : Parser ε β α} {c : Cursor β} {e : ε} (h : p c = .error e)
    (f : α → Parser ε β γ) : (p >>= f) c = .error e := by
  rw [bind_apply, h]
  rfl

theorem Sticky.pure (a : α) : Sticky (Pure.pure a : Parser ε β α) := ⟨a, rfl⟩

theorem Sticky.bind {p : Parser ε β α} {f : α → Parser ε β γ} (hp : Sticky p)
    (hf : ∀ a, Sticky (f a)) : Sticky (p >>= f) := by
  obtain ⟨a, ha⟩ := hp
  obtain ⟨b, hb⟩ := hf a
  refine ⟨b, ?_⟩
  rw [bind_apply, ha]
  exact hb

theorem Reads.pure (a : α) : Reads (Pure.pure a : Parser ε β α) a [] where
  full _ := rfl
  short _ hpre hne := absurd (List.prefix_nil.mp hpre) hne

/-- A proper prefix of `e₁ ++ e₂` is a proper prefix of `e₁`, or `e₁` followed by one of `e₂`. -/
theorem proper_prefix_append {pre e₁ e₂ : List β} (h : pre <+: e₁ ++ e₂) (hne : pre ≠ e₁ ++ e₂) :
    (pre <+: e₁ ∧ pre ≠ e₁) ∨ ∃ q, pre = e₁ ++ q ∧ q <+: e₂ ∧ q ≠ e₂ := by
  rcases List.prefix_or_prefix_of_prefix h (List.prefix_append e₁ e₂) with h₁ | ⟨q, rfl⟩
  · by_cases he : pre = e₁
    · subst he
      exact Or.inr ⟨[], by simp, List.nil_prefix, fun h => hne (by rw [← h, List.append_nil])⟩
    · exact Or.inl ⟨h₁, he⟩
  · exact Or.inr ⟨q, rfl, (List.prefix_append_right_inj e₁).mp h, fun h => hne (by rw [h])⟩

/-- Encodings read one after the other are read as their concatenation. -/
theorem Reads.bind {p : Parser ε β α} {f : α → Parser ε β γ} {a : α} {b : γ} {e₁ e₂ : List β}
    (hp : Reads p a e₁) (hf : Reads (f a) b e₂) (hs : ∀ a', Sticky (f a')) :
    Reads (p >>= f) b (e₁ ++ e₂) where
  full rest := by
    rw [bind_apply, List.append_assoc, hp.full]
    exact hf.full rest
  short pre hpre hne := by
    rw [bind_apply]
    rcases proper_prefix_append hpre hne with ⟨h₁, hne₁⟩ | ⟨q, rfl, hq, hqne⟩
    · -- the first parser runs short, and the second stays so
      obtain ⟨a', ha'⟩ := hp.short pre h₁ hne₁
      rw [ha']
      exact hs a'
    · rw [hp.full]
      exact hf.short q hq hqne

/-- The form of `Reads.bind` for a last step that only returns. -/
theorem Reads.bind_pure {p : Parser ε β α} {f : α → γ} {a : α} {e : List β} (hp : Reads p a e) :
    Reads (p >>= fun x => Pure.pure (f x)) (f a) e := by
  have h := hp.bind (Reads.pure (f a)) (fun a' => Sticky.pure (f a'))
  rwa [List.append_nil] at h

/-- The form of `Reads.bind` for an action that reads nothing. -/
theorem Reads.bind_nil {p : Parser ε β α} {f : α → Parser ε β γ} {a : α} {b : γ} {e : List β}
    (hp : Reads p a []) (hf : Reads (f a) b e) (hs : ∀ a', Sticky (f a')) :
    Reads (p >>= f) b e :=
  hp.bind hf hs

/-- Run `p` for each element of an array of length `n`. -/
def many (p : Parser ε β α) : (n : ℕ) → Parser ε β { l : List α // l.length = n }
  | 0 => pure ⟨[], rfl⟩
  | n + 1 => do
    let a ← p
    let l ← many p n
    pure ⟨a :: l.1, by rw [List.length_cons, l.2]⟩

theorem Sticky.many {p : Parser ε β α} (hp : Sticky p) (n : ℕ) : Sticky (many p n) := by
  induction n with
  | zero => exact Sticky.pure _
  | succ n ih => exact hp.bind fun a => ih.bind fun l => Sticky.pure _

/-- Elements with an encoding each are read one after the other. -/
theorem Reads.many_map {τ : Type} {p : Parser ε β α} {val : τ → α} {enc : τ → List β}
    (hs : Sticky p) (hp : ∀ t, Reads p (val t) (enc t)) (ts : List τ) {n : ℕ}
    (l : { l : List α // l.length = n }) (hl : ts.map val = l.1) :
    Reads (StickyParser.many p n) l (ts.flatMap enc) := by
  induction n generalizing ts with
  | zero =>
    obtain ⟨l, hlen⟩ := l
    obtain rfl := List.length_eq_zero_iff.mp hlen
    obtain rfl := List.map_eq_nil_iff.mp hl
    exact Reads.pure _
  | succ n ih =>
    obtain ⟨l, hlen⟩ := l
    cases ts with
    | nil =>
      obtain rfl : [] = l := hl
      simp at hlen
    | cons t ts =>
      obtain rfl : val t :: ts.map val = l := hl
      have hrest := ih ts ⟨ts.map val, by simpa using hlen⟩ rfl
      rw [List.flatMap_cons]
      refine (hp t).bind (Reads.bind_pure hrest) fun a' => ?_
      exact (hs.many n).bind fun l => Sticky.pure _

/-- `p` is `q`, except that it stops with `e` on what fails `fits`; and `q` does not stop. -/
def Guards (e : ε) (p q : Parser ε β α) (fits : α → Bool) : Prop :=
  ∀ c, ∃ a c', q c = .ok (a, c') ∧ p c = if fits a then .ok (a, c') else .error e

/-- An array is guarded by all its elements: the first that fails stops the loop. -/
theorem Guards.many {e : ε} {p q : Parser ε β α} {fits : α → Bool} (h : Guards e p q fits) (n : ℕ) :
    Guards e (StickyParser.many p n) (StickyParser.many q n) fun l => l.1.all fits := by
  induction n with
  | zero => exact fun c => ⟨_, c, rfl, rfl⟩
  | succ n ih =>
    intro c
    obtain ⟨a, c₁, hq, hp⟩ := h c
    obtain ⟨l, c₂, hqs, hps⟩ := ih c₁
    refine ⟨⟨a :: l.1, by rw [List.length_cons, l.2]⟩, c₂, ?_, ?_⟩
    · rw [StickyParser.many, bind_of_ok hq, bind_of_ok hqs]
      rfl
    · rw [StickyParser.many]
      by_cases ha : fits a = true
      · rw [if_pos ha] at hp
        rw [bind_of_ok hp]
        by_cases hl : l.1.all fits = true
        · rw [if_pos hl] at hps
          rw [bind_of_ok hps, if_pos (by simp only [List.all_cons, ha, hl, Bool.and_true])]
          rfl
        · rw [if_neg hl] at hps
          rw [bind_of_error hps, if_neg (by simp [hl])]
      · rw [if_neg ha] at hp
        rw [bind_of_error hp, if_neg (by simp [ha])]

end StickyParser
