import BitcoinIblt.Lib.Peeling

/-!
# Tables of sums

A table assigns to each cell an element of an abelian group. Putting an item into the table adds
its value to every cell it hits, once for each hit. The table of a collection of items is the sum
of what each puts (`total`), so it does not depend on their order, common items cancel in a
difference, and a cell with exactly one hit holds the value of the item that hits it
(`total_apply_of_load_eq_one`).
-/

namespace SignedTable

open Peeling

variable {C S G : Type} [AddCommGroup G] (hits : S → C → ℕ) (val : S → G)

/-- What one item puts into the table. -/
def put (s : S) : C → G := fun c => hits s c • val s

/-- The table of a collection of items. -/
def total (l : List S) : C → G := (l.map (put hits val)).sum

@[simp] theorem total_nil : total hits val [] = 0 := rfl

@[simp] theorem total_cons (s : S) (l : List S) :
    total hits val (s :: l) = put hits val s + total hits val l := by
  simp [total]

@[simp] theorem total_append (l₁ l₂ : List S) :
    total hits val (l₁ ++ l₂) = total hits val l₁ + total hits val l₂ := by
  simp [total]

theorem total_perm {l₁ l₂ : List S} (h : l₁.Perm l₂) :
    total hits val l₁ = total hits val l₂ :=
  (h.map _).sum_eq

/-- Common items cancel in a difference. -/
theorem total_sub_total {l₁ l₂ a b c : List S} (h₁ : (a ++ c).Perm l₁) (h₂ : (b ++ c).Perm l₂) :
    total hits val l₁ - total hits val l₂ = total hits val a - total hits val b := by
  rw [← total_perm hits val h₁, ← total_perm hits val h₂, total_append, total_append,
    add_sub_add_right_eq_sub]

theorem total_flatMap {I : Type} (f : I → List S) (l : List I) :
    total hits val (l.flatMap f) = (l.map fun i => total hits val (f i)).sum := by
  induction l with
  | nil => rfl
  | cons i l ih => simp [ih]

theorem put_neg (s : S) : put hits (fun s => -val s) s = -put hits val s := by
  funext c
  simp [put]

/-- A loop whose every step adds `g a` to what `φ` reads off the state. -/
theorem foldlM_add {ε β α M : Type} [AddCommMonoid M] {f : β → α → Except ε β} {φ : β → M}
    {g : α → M} (l : List α) (h : ∀ a ∈ l, ∀ b, ∃ b', f b a = .ok b' ∧ φ b' = φ b + g a) (b : β) :
    ∃ b', l.foldlM f b = .ok b' ∧ φ b' = φ b + (l.map g).sum := by
  induction l generalizing b with
  | nil => exact ⟨b, rfl, by simp⟩
  | cons a l ih =>
    obtain ⟨b₁, h₁, hφ₁⟩ := h a List.mem_cons_self b
    obtain ⟨b₂, h₂, hφ₂⟩ := ih (fun x hx => h x (List.mem_cons_of_mem a hx)) b₁
    refine ⟨b₂, ?_, ?_⟩
    · rw [List.foldlM_cons, h₁]
      exact h₂
    · rw [hφ₂, hφ₁, List.map_cons, List.sum_cons, add_assoc]

section Visits

variable [DecidableEq C]

/-- One more visit to the cell `a`. -/
theorem single_add_count (a : C) (l : List C) (v : G) :
    (Pi.single a v + fun c => l.count c • v) = fun c => (a :: l).count c • v := by
  funext c
  by_cases hc : c = a
  · subst hc
    simp [add_smul, add_comm]
  · simp [hc, List.count_cons_of_ne (Ne.symm hc)]

/-- A loop over cells that adds `v` to each cell it visits. -/
theorem foldl_single {β : Type} {f : β → C → β} {φ : β → C → G} {v : G}
    (h : ∀ b c, φ (f b c) = φ b + Pi.single c v) (l : List C) (b : β) :
    φ (l.foldl f b) = φ b + fun c => l.count c • v := by
  induction l generalizing b with
  | nil =>
    funext c
    simp
  | cons a l ih => rw [List.foldl_cons, ih, h, add_assoc, single_add_count]

end Visits

variable {hits val}

/-- A cell without hits is zero. -/
theorem total_apply_of_load_eq_zero {l : List S} {c : C} (h : load hits l c = 0) :
    total hits val l c = 0 := by
  induction l with
  | nil => rfl
  | cons s l ih =>
    rw [load_cons] at h
    rw [total_cons, Pi.add_apply, ih (by omega), put, show hits s c = 0 by omega]
    simp

/-- A cell with one hit holds the value of the item that hits it. -/
theorem total_apply_of_load_eq_one {l : List S} {c : C} (h : load hits l c = 1) :
    ∃ s ∈ l, 0 < hits s c ∧ total hits val l c = val s := by
  induction l with
  | nil => simp at h
  | cons s l ih =>
    rw [load_cons] at h
    rw [total_cons, Pi.add_apply, put]
    by_cases hs : hits s c = 0
    · obtain ⟨t, ht, hpos, hval⟩ := ih (by omega)
      exact ⟨t, List.mem_cons_of_mem s ht, hpos, by rw [hs, hval]; simp⟩
    · refine ⟨s, List.mem_cons_self, by omega, ?_⟩
      rw [total_apply_of_load_eq_zero (by omega), show hits s c = 1 by omega]
      simp

/-- A homomorphism that sends every value to one counts the hits. -/
theorem hom_total_apply {Z : Type} [AddCommGroupWithOne Z] (φ : G →+ Z) (hφ : ∀ s, φ (val s) = 1)
    (l : List S) (c : C) : φ (total hits val l c) = load hits l c := by
  induction l with
  | nil => simp
  | cons s l ih =>
    rw [total_cons, Pi.add_apply, map_add, ih, put, map_nsmul, hφ, nsmul_one, load_cons,
      Nat.cast_add]

end SignedTable
