import Mathlib

/-!
# Passes over lists

A sequence that may fail, a pass over a list with such a body (`List.mapM`), and what relates the
elements of a list to what passes have made of them (`List.Forall₂`).
-/

namespace Passes

theorem ok_bind {ε α β : Type} (a : α) (f : α → Except ε β) :
    ((Except.ok a : Except ε α) >>= f) = f a := rfl

/-- A sequence that returns has a first part that returns. -/
theorem of_bind_ok {ε α β : Type} {x : Except ε α} {f : α → Except ε β} {b : β}
    (h : (x >>= f) = .ok b) : ∃ a, x = .ok a ∧ f a = .ok b := by
  cases x with
  | error e => cases h
  | ok a => exact ⟨a, rfl, h⟩

/-- A pass over a list, each element of which can be worked on. -/
theorem mapM_ok {ε α β : Type} {f : α → Except ε β} {R : α → β → Prop} {l : List α}
    (h : ∀ a ∈ l, ∃ b, f a = .ok b ∧ R a b) : ∃ bs, l.mapM f = .ok bs ∧ List.Forall₂ R l bs := by
  induction l with
  | nil => exact ⟨[], rfl, List.Forall₂.nil⟩
  | cons a l ih =>
    obtain ⟨b, hb, hr⟩ := h a List.mem_cons_self
    obtain ⟨bs, hbs, hrs⟩ := ih fun a ha => h a (List.mem_cons_of_mem _ ha)
    refine ⟨b :: bs, ?_, List.Forall₂.cons hr hrs⟩
    rw [List.mapM_cons, hb]
    show (l.mapM f >>= fun bs => pure (b :: bs)) = _
    rw [hbs]
    rfl

/-- What a pass has made of the elements. -/
theorem forall₂_of_mapM_ok {ε α β : Type} {f : α → Except ε β} {l : List α} {bs : List β}
    (h : l.mapM f = .ok bs) : List.Forall₂ (fun a b => f a = .ok b) l bs := by
  induction l generalizing bs with
  | nil =>
    cases h
    exact List.Forall₂.nil
  | cons a l ih =>
    rw [List.mapM_cons] at h
    obtain ⟨b, hb, h⟩ := of_bind_ok h
    obtain ⟨bs', hbs, h⟩ := of_bind_ok h
    cases h
    exact List.Forall₂.cons hb (ih hbs)

theorem forall_of_mapM_ok {ε α β : Type} {f : α → Except ε β} {Q : β → Prop} {l : List α}
    (hf : ∀ a ∈ l, ∀ b, f a = .ok b → Q b) {bs : List β} (h : l.mapM f = .ok bs) :
    ∀ b ∈ bs, Q b := by
  have hall := forall₂_of_mapM_ok h
  intro b hb
  obtain ⟨i, hi, rfl⟩ := List.getElem_of_mem hb
  have hi' : i < l.length := hall.length_eq ▸ hi
  exact hf l[i] (List.getElem_mem hi') _ (hall.get hi' hi)

/-! ## Passes in a row -/

/-- Two relations one after the other. -/
theorem forall₂_comp {α β γ : Type} {R : α → β → Prop} {S : β → γ → Prop} {T : α → γ → Prop}
    {l : List α} {l' : List β} {l'' : List γ} (h : List.Forall₂ R l l') (h' : List.Forall₂ S l' l'')
    (hT : ∀ a ∈ l, ∀ b, R a b → ∀ c, S b c → T a c) : List.Forall₂ T l l'' := by
  induction h generalizing l'' with
  | nil =>
    rw [List.forall₂_nil_left_iff.mp h']
    exact List.Forall₂.nil
  | cons hR _ ih =>
    obtain ⟨hfirst, hrest⟩ := List.forall_mem_cons.mp hT
    obtain ⟨c, l'', hS, hrest', rfl⟩ := List.forall₂_cons_left_iff.mp h'
    exact List.Forall₂.cons (hfirst _ hR c hS) (ih hrest' hrest)

theorem forall₂_of_mem_right {α β : Type} {R : α → β → Prop} {l : List α} {l' : List β}
    (h : List.Forall₂ R l l') {b : β} (hb : b ∈ l') : ∃ a ∈ l, R a b := by
  induction h with
  | nil => exact absurd hb List.not_mem_nil
  | cons hR _ ih =>
    rcases List.mem_cons.mp hb with rfl | hb
    · exact ⟨_, List.mem_cons_self, hR⟩
    · obtain ⟨a, ha, hR⟩ := ih hb
      exact ⟨a, List.mem_cons_of_mem _ ha, hR⟩

end Passes
