import Mathlib

/-!
# Peeling

Items hit cells, item `i` hitting cell `c` `hits i c` times. An item can be peeled off a collection
when one of its hits is alone in its cell. A collection is `Peelable` when its items can be put in
an order in which each is alone among itself and the later ones.

Peeling is confluent: an item that can be peeled can be peeled from every smaller collection
(`Alone.mono`), so taking away any peelable item changes nothing about peelability
(`peelable_iff_of_alone`), and a collection from which nothing can be peeled is peelable only if it
is empty (`peelable_iff_of_stuck`). Whatever is peeled first, the outcome is the same.
-/

namespace Peeling

open scoped List

variable {I C : Type} {hits : I → C → ℕ}

/-- The hits of all items of `l` at the cell `c`. -/
def load (hits : I → C → ℕ) (l : List I) (c : C) : ℕ := (l.map fun i => hits i c).sum

/-- Some hit of `i` is alone in its cell among the hits of `l`. -/
def Alone (hits : I → C → ℕ) (l : List I) (i : I) : Prop := ∃ c, 0 < hits i c ∧ load hits l c = 1

/-- Each item is alone among itself and the later ones. -/
def PeelOrder (hits : I → C → ℕ) : List I → Prop
  | [] => True
  | i :: l => Alone hits (i :: l) i ∧ PeelOrder hits l

/-- The items can be put in an order in which each is alone among itself and the later ones. -/
def Peelable (hits : I → C → ℕ) (l : List I) : Prop := ∃ o : List I, o.Perm l ∧ PeelOrder hits o

/-! ## Loads -/

@[simp] theorem load_nil (c : C) : load hits [] c = 0 := rfl

@[simp] theorem load_cons (i : I) (l : List I) (c : C) :
    load hits (i :: l) c = hits i c + load hits l c := by
  simp [load]

@[simp] theorem load_append (l₁ l₂ : List I) (c : C) :
    load hits (l₁ ++ l₂) c = load hits l₁ c + load hits l₂ c := by
  simp [load]

/-- Items that are collections of items themselves. -/
theorem load_flatMap {J : Type} (f : J → List I) (l : List J) (c : C) :
    load hits (l.flatMap f) c = load (fun j c => load hits (f j) c) l c := by
  induction l with
  | nil => rfl
  | cons j l ih => rw [List.flatMap_cons, load_append, ih, load_cons]

theorem load_perm {l₁ l₂ : List I} (h : l₁.Perm l₂) (c : C) : load hits l₁ c = load hits l₂ c :=
  (h.map _).sum_eq

theorem load_le_of_sublist {l₁ l₂ : List I} (h : l₁ <+ l₂) (c : C) :
    load hits l₁ c ≤ load hits l₂ c :=
  (h.map fun i => hits i c).sum_le_sum fun _ _ => Nat.zero_le _

theorem load_le_of_subperm {l₁ l₂ : List I} (h : l₁.Subperm l₂) (c : C) :
    load hits l₁ c ≤ load hits l₂ c := by
  obtain ⟨l, hperm, hsub⟩ := h
  rw [← load_perm hperm]
  exact load_le_of_sublist hsub c

theorem hits_le_load {i : I} {l : List I} (h : i ∈ l) (c : C) : hits i c ≤ load hits l c := by
  have : load hits [i] c ≤ load hits l c := load_le_of_sublist (List.singleton_sublist.mpr h) c
  simpa using this

/-! ## Confluence -/

/-- What can be peeled can be peeled from every smaller collection that contains it. -/
theorem Alone.mono {l l' : List I} {i : I} (h : Alone hits l i) (hi : i ∈ l')
    (hsub : l'.Subperm l) : Alone hits l' i := by
  obtain ⟨c, hc, hl⟩ := h
  have h₁ : hits i c ≤ load hits l' c := hits_le_load hi c
  have h₂ : load hits l' c ≤ load hits l c := load_le_of_subperm hsub c
  exact ⟨c, hc, by omega⟩

theorem Alone.perm {l l' : List I} {i : I} (h : Alone hits l i) (hp : l.Perm l') :
    Alone hits l' i := by
  obtain ⟨c, hc, hl⟩ := h
  exact ⟨c, hc, by rw [← load_perm hp, hl]⟩

theorem PeelOrder.sublist {l l' : List I} (h : PeelOrder hits l) (hsub : l' <+ l) :
    PeelOrder hits l' := by
  induction hsub with
  | slnil => trivial
  | cons i _ ih => exact ih h.2
  | cons_cons i hs ih =>
    exact ⟨h.1.mono List.mem_cons_self (hs.cons_cons i).subperm, ih h.2⟩

theorem Peelable.perm {l l' : List I} (h : Peelable hits l) (hp : l.Perm l') :
    Peelable hits l' := by
  obtain ⟨o, ho, hord⟩ := h
  exact ⟨o, ho.trans hp, hord⟩

/-- A part of a peelable collection is peelable. -/
theorem Peelable.subperm {l l' : List I} (h : Peelable hits l) (hsub : l'.Subperm l) :
    Peelable hits l' := by
  obtain ⟨o, ho, hord⟩ := h
  obtain ⟨o', ho', hsub'⟩ := hsub.trans ho.symm.subperm
  exact ⟨o', ho', hord.sublist hsub'⟩

/-- Peeling an item off decides nothing. -/
theorem peelable_iff_of_alone {i : I} {l l' : List I} (h : Alone hits l i)
    (hl : l.Perm (i :: l')) : Peelable hits l ↔ Peelable hits l' := by
  constructor
  · intro hp
    exact hp.subperm ((List.sublist_cons_self i l').subperm.trans hl.symm.subperm)
  · rintro ⟨o, ho, hord⟩
    exact ⟨i :: o, (ho.cons i).trans hl.symm, h.perm (hl.trans (ho.symm.cons i)), hord⟩

theorem Peelable.nil : Peelable hits [] := ⟨[], List.Perm.refl [], trivial⟩

/-- A nonempty peelable collection has an item to peel. -/
theorem Peelable.exists_alone {l : List I} (h : Peelable hits l) (hne : l ≠ []) :
    ∃ i ∈ l, Alone hits l i := by
  obtain ⟨o, ho, hord⟩ := h
  cases o with
  | nil => exact absurd ho.symm.eq_nil hne
  | cons i o => exact ⟨i, ho.mem_iff.mp List.mem_cons_self, hord.1.perm ho⟩

/-- When nothing can be peeled, only the empty collection is peelable. -/
theorem peelable_iff_of_stuck {l : List I} (h : ∀ i ∈ l, ¬ Alone hits l i) :
    Peelable hits l ↔ l = [] := by
  constructor
  · intro hp
    by_contra hne
    obtain ⟨i, hi, ha⟩ := hp.exists_alone hne
    exact h i hi ha
  · rintro rfl
    exact Peelable.nil

/-! ## Renaming -/

theorem load_map {J : Type} (f : J → I) (l : List J) (c : C) :
    load hits (l.map f) c = load (fun j => hits (f j)) l c := by
  unfold load
  rw [List.map_map]
  rfl

theorem peelOrder_map {J : Type} (f : J → I) (l : List J) :
    PeelOrder hits (l.map f) ↔ PeelOrder (fun j => hits (f j)) l := by
  induction l with
  | nil => exact Iff.rfl
  | cons j l ih =>
    have halone : Alone hits ((j :: l).map f) (f j) ↔ Alone (fun j => hits (f j)) (j :: l) j :=
      exists_congr fun c => by rw [load_map]
    exact and_congr halone ih

/-- Distinct names make no difference. -/
theorem peelable_map {J : Type} {f : J → I} (hf : Function.Injective f) {l : List J} :
    Peelable hits (l.map f) ↔ Peelable (fun j => hits (f j)) l := by
  constructor
  · rintro ⟨o, ho, hord⟩
    have hrange : ∀ i ∈ o, i ∈ Set.range f := by
      intro i hi
      obtain ⟨j, -, hj⟩ := List.mem_map.mp (ho.mem_iff.mp hi)
      exact ⟨j, hj⟩
    obtain ⟨o', rfl⟩ : o ∈ Set.range (List.map f) := by
      rw [Set.range_list_map]
      exact hrange
    exact ⟨o', (List.map_perm_map_iff hf).mp ho, (peelOrder_map f o').mp hord⟩
  · rintro ⟨o, ho, hord⟩
    exact ⟨o.map f, ho.map f, (peelOrder_map f o).mpr hord⟩

end Peeling
