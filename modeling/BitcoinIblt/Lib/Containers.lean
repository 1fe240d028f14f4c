import Mathlib

/-!
# Containers

`UnorderedMap` and `UnorderedSet` are the hash containers of the C++ library: the entries in the
order an iteration visits them, which is any order, with distinct keys. `insert` leaves an entry
with the same key alone and says whether it inserted; `erase` says whether it erased.

`OrdSet lt` is `std::set` with the comparison `lt`: the elements in increasing order. Elements
neither of which is below the other are one element to the set.
-/

/-! ## Unordered maps -/

/-- A map as the list of its entries in iteration order. -/
structure UnorderedMap (κ α : Type) where
  entries : List (κ × α)
  nodup : (entries.map Prod.fst).Nodup

namespace UnorderedMap

variable {κ α : Type} [DecidableEq κ]

/-- The keys in iteration order. -/
def keys (m : UnorderedMap κ α) : List κ := m.entries.map Prod.fst

def empty : UnorderedMap κ α := ⟨[], List.nodup_nil⟩

def find (m : UnorderedMap κ α) (k : κ) : Option α :=
  (m.entries.find? fun e => e.1 = k).map Prod.snd

def size (m : UnorderedMap κ α) : ℕ := m.entries.length

def insert (m : UnorderedMap κ α) (k : κ) (a : α) : UnorderedMap κ α × Bool :=
  if h : k ∈ m.entries.map Prod.fst then (m, false)
  else (⟨(k, a) :: m.entries, List.nodup_cons.mpr ⟨h, m.nodup⟩⟩, true)

def erase (m : UnorderedMap κ α) (k : κ) : UnorderedMap κ α × Bool :=
  (⟨m.entries.filter fun e => e.1 ≠ k, (List.filter_sublist.map _).nodup m.nodup⟩,
    decide (k ∈ m.entries.map Prod.fst))

omit [DecidableEq κ] in
/-- A key has one value. -/
theorem value_unique {m : UnorderedMap κ α} {k : κ} {a b : α} (ha : (k, a) ∈ m.entries)
    (hb : (k, b) ∈ m.entries) : a = b :=
  congrArg Prod.snd (List.inj_on_of_nodup_map m.nodup ha hb rfl)

omit [DecidableEq κ] in
theorem entries_nodup (m : UnorderedMap κ α) : m.entries.Nodup := m.nodup.of_map _

theorem find_eq_some_iff {m : UnorderedMap κ α} {k : κ} {a : α} :
    m.find k = some a ↔ (k, a) ∈ m.entries := by
  unfold find
  constructor
  · intro h
    obtain ⟨⟨k', a'⟩, hf, rfl⟩ := Option.map_eq_some_iff.mp h
    obtain rfl : k' = k := by simpa using List.find?_some hf
    exact List.mem_of_find?_eq_some hf
  · intro h
    cases hf : m.entries.find? fun e => e.1 = k with
    | none => simpa using List.find?_eq_none.mp hf _ h
    | some e =>
      obtain ⟨k', a'⟩ := e
      obtain rfl : k' = k := by simpa using List.find?_some hf
      rw [Option.map_some, value_unique (List.mem_of_find?_eq_some hf) h]

omit [DecidableEq κ] in
theorem mem_keys_iff {m : UnorderedMap κ α} {k : κ} :
    k ∈ m.entries.map Prod.fst ↔ ∃ a, (k, a) ∈ m.entries := by
  simp

theorem find_eq_none_iff {m : UnorderedMap κ α} {k : κ} : m.find k = none ↔ k ∉ m.keys := by
  rw [keys, mem_keys_iff, not_exists, Option.eq_none_iff_forall_ne_some]
  exact forall_congr' fun a => not_congr find_eq_some_iff

theorem mem_insert {m : UnorderedMap κ α} {k : κ} {a : α} {e : κ × α} :
    e ∈ (m.insert k a).1.entries ↔
      e ∈ m.entries ∨ (e = (k, a) ∧ ∀ b, (k, b) ∉ m.entries) := by
  unfold insert
  split_ifs with h
  · obtain ⟨b, hb⟩ := mem_keys_iff.mp h
    exact ⟨Or.inl, fun h' => h'.elim id fun h'' => absurd hb (h''.2 b)⟩
  · have hk : ∀ b, (k, b) ∉ m.entries := fun b hb => h (mem_keys_iff.mpr ⟨b, hb⟩)
    simp [hk, or_comm]

theorem insert_snd {m : UnorderedMap κ α} {k : κ} {a : α} :
    (m.insert k a).2 = true ↔ ∀ b, (k, b) ∉ m.entries := by
  unfold insert
  split_ifs with h
  · obtain ⟨b, hb⟩ := mem_keys_iff.mp h
    exact ⟨fun h' => by simp at h', fun h' => absurd hb (h' b)⟩
  · exact ⟨fun _ b hb => h (mem_keys_iff.mpr ⟨b, hb⟩), fun _ => rfl⟩

theorem mem_erase {m : UnorderedMap κ α} {k : κ} {e : κ × α} :
    e ∈ (m.erase k).1.entries ↔ e ∈ m.entries ∧ e.1 ≠ k := by
  simp [erase]

theorem erase_snd {m : UnorderedMap κ α} {k : κ} :
    (m.erase k).2 = true ↔ ∃ a, (k, a) ∈ m.entries := by
  simp [erase]

theorem mem_keys_insert {m : UnorderedMap κ α} {k k' : κ} {a : α} :
    k' ∈ (m.insert k a).1.keys ↔ k' = k ∨ k' ∈ m.keys := by
  unfold insert keys
  split_ifs with h
  · exact ⟨Or.inr, fun h' => h'.elim (fun e => e ▸ h) id⟩
  · simp

theorem mem_keys_erase {m : UnorderedMap κ α} {k k' : κ} :
    k' ∈ (m.erase k).1.keys ↔ k' ∈ m.keys ∧ k' ≠ k := by
  simp only [keys, mem_keys_iff, mem_erase]
  exact ⟨fun ⟨a, ha, hne⟩ => ⟨⟨a, ha⟩, hne⟩, fun ⟨⟨a, ha⟩, hne⟩ => ⟨a, ha, hne⟩⟩

/-- Erasing the key of an entry takes that entry out of the list. -/
theorem erase_perm {m : UnorderedMap κ α} {k : κ} {a : α} (h : (k, a) ∈ m.entries) :
    m.entries.Perm ((k, a) :: (m.erase k).1.entries) := by
  refine (List.perm_ext_iff_of_nodup m.entries_nodup ?_).mpr fun e => ?_
  · exact List.nodup_cons.mpr ⟨fun h' => (mem_erase.mp h').2 rfl, (m.erase k).1.entries_nodup⟩
  · obtain ⟨k', a'⟩ := e
    rw [List.mem_cons, mem_erase]
    constructor
    · intro he
      by_cases hk : k' = k
      · subst hk
        exact Or.inl (by rw [value_unique he h])
      · exact Or.inr ⟨he, hk⟩
    · rintro (he | he)
      · rw [he]; exact h
      · exact he.1

/-- What a map holds does not depend on the order of its entries. -/
theorem find_perm {m m' : UnorderedMap κ α} (h : m.entries.Perm m'.entries) (k : κ) :
    m.find k = m'.find k := by
  apply Option.ext
  intro a
  rw [find_eq_some_iff, find_eq_some_iff, h.mem_iff]

theorem erase_congr_perm {m m' : UnorderedMap κ α} (h : m.entries.Perm m'.entries) (k : κ) :
    (m.erase k).1.entries.Perm (m'.erase k).1.entries ∧ (m.erase k).2 = (m'.erase k).2 := by
  refine ⟨h.filter _, ?_⟩
  apply Bool.eq_iff_iff.mpr
  rw [erase_snd, erase_snd]
  exact exists_congr fun a => h.mem_iff

theorem size_erase {m : UnorderedMap κ α} {k : κ} {a : α} (h : (k, a) ∈ m.entries) :
    m.size = (m.erase k).1.size + 1 := by
  have := (erase_perm h).length_eq
  simpa [size] using this

section Loops

variable {β : Type} (key : β → κ) (l : List β) {k : κ}

/-- A loop of insertions. -/
theorem mem_keys_foldl_insert (value : β → α) (m : UnorderedMap κ α) :
    k ∈ (l.foldl (fun m b => (m.insert (key b) (value b)).1) m).keys ↔
      k ∈ m.keys ∨ k ∈ l.map key := by
  induction l generalizing m with
  | nil => simp
  | cons b l ih =>
    rw [List.foldl_cons, ih, mem_keys_insert, List.map_cons, List.mem_cons, or_assoc, or_left_comm]

/-- A loop of erasures. -/
theorem mem_keys_foldl_erase (m : UnorderedMap κ α) :
    k ∈ (l.foldl (fun m b => (m.erase (key b)).1) m).keys ↔ k ∈ m.keys ∧ k ∉ l.map key := by
  induction l generalizing m with
  | nil => simp
  | cons b l ih =>
    rw [List.foldl_cons, ih, mem_keys_erase, List.map_cons, List.mem_cons, not_or, and_assoc]

variable {key l} {m M : UnorderedMap κ α} (hm : ∀ e ∈ m.entries, e ∈ M.entries)

include hm

theorem foldl_insert_sub {value : β → α} (hl : ∀ b ∈ l, (key b, value b) ∈ M.entries) :
    ∀ e ∈ (l.foldl (fun m b => (m.insert (key b) (value b)).1) m).entries, e ∈ M.entries := by
  induction l generalizing m with
  | nil => exact hm
  | cons b l ih =>
    obtain ⟨hb, hl⟩ := List.forall_mem_cons.mp hl
    refine ih (fun e he => ?_) hl
    rcases mem_insert.mp he with he | ⟨rfl, -⟩
    · exact hm e he
    · exact hb

theorem foldl_erase_sub :
    ∀ e ∈ (l.foldl (fun m b => (m.erase (key b)).1) m).entries, e ∈ M.entries := by
  induction l generalizing m with
  | nil => exact hm
  | cons b l ih => exact ih fun e he => hm e (mem_erase.mp he).1

end Loops

end UnorderedMap

/-! ## Unordered sets -/

/-- A set as the list of its elements in iteration order. -/
structure UnorderedSet (α : Type) where
  toList : List α
  nodup : toList.Nodup

namespace UnorderedSet

variable {α : Type}

def empty : UnorderedSet α := ⟨[], List.nodup_nil⟩

def size (s : UnorderedSet α) : ℕ := s.toList.length

instance : Membership α (UnorderedSet α) := ⟨fun s a => a ∈ s.toList⟩

theorem mem_def {s : UnorderedSet α} {a : α} : a ∈ s ↔ a ∈ s.toList := Iff.rfl

@[simp] theorem not_mem_empty (a : α) : a ∉ (empty : UnorderedSet α) := List.not_mem_nil

section

variable [DecidableEq α]

instance (a : α) (s : UnorderedSet α) : Decidable (a ∈ s) :=
  inferInstanceAs (Decidable (a ∈ s.toList))

def insert (s : UnorderedSet α) (a : α) : UnorderedSet α :=
  if h : a ∈ s.toList then s else ⟨a :: s.toList, List.nodup_cons.mpr ⟨h, s.nodup⟩⟩

theorem mem_insert {s : UnorderedSet α} {a b : α} : b ∈ s.insert a ↔ b = a ∨ b ∈ s := by
  unfold insert
  split_ifs with h
  · exact ⟨Or.inr, fun h' => h'.elim (fun e => e ▸ h) id⟩
  · exact List.mem_cons

theorem size_insert_le (s : UnorderedSet α) (a : α) : (s.insert a).size ≤ s.size + 1 := by
  unfold insert
  split_ifs
  · exact Nat.le_succ _
  · exact le_rfl

def erase (s : UnorderedSet α) (a : α) : UnorderedSet α :=
  ⟨s.toList.filter fun b => b ≠ a, s.nodup.filter _⟩

theorem mem_erase {s : UnorderedSet α} {a b : α} : b ∈ s.erase a ↔ b ∈ s ∧ b ≠ a := by
  simp [erase, mem_def]

/-- A loop of insertions. -/
theorem mem_foldl_insert {β : Type} (value : β → α) (l : List β) (s : UnorderedSet α) {a : α} :
    a ∈ l.foldl (fun s b => s.insert (value b)) s ↔ a ∈ s ∨ a ∈ l.map value := by
  induction l generalizing s with
  | nil => simp
  | cons b l ih =>
    rw [List.foldl_cons, ih, mem_insert, List.map_cons, List.mem_cons, or_assoc, or_left_comm]

/-- A loop of erasures. -/
theorem mem_foldl_erase (l : List α) (s : UnorderedSet α) {a : α} :
    a ∈ l.foldl erase s ↔ a ∈ s ∧ a ∉ l := by
  induction l generalizing s with
  | nil => simp
  | cons b l ih => rw [List.foldl_cons, ih, mem_erase, List.mem_cons, not_or, and_assoc]

end

end UnorderedSet

/-! ## Ordered sets -/

/-- A `std::set`: its elements in increasing order. -/
structure OrdSet {α : Type} (lt : α → α → Prop) where
  toList : List α
  sorted : toList.Pairwise lt

namespace OrdSet

variable {α : Type} {lt : α → α → Prop}

instance : Membership α (OrdSet lt) := ⟨fun s a => a ∈ s.toList⟩

theorem mem_def {s : OrdSet lt} {a : α} : a ∈ s ↔ a ∈ s.toList := Iff.rfl

def empty : OrdSet lt := ⟨[], List.Pairwise.nil⟩

@[simp] theorem not_mem_empty (a : α) : a ∉ (empty : OrdSet lt) := List.not_mem_nil

/-- Neither element is below the other. -/
def Equiv (lt : α → α → Prop) (a b : α) : Prop := ¬ lt a b ∧ ¬ lt b a

section Insert

variable [DecidableRel lt]

/-- Put `a` in its place; the flag is `false` when an equivalent element is there. -/
def insertList (lt : α → α → Prop) [DecidableRel lt] (a : α) : List α → List α × Bool
  | [] => ([a], true)
  | b :: l =>
    if lt a b then (a :: b :: l, true)
    else if lt b a then (b :: (insertList lt a l).1, (insertList lt a l).2)
    else (b :: l, false)

theorem mem_insertList {a x : α} {l : List α} :
    x ∈ (insertList lt a l).1 ↔ x ∈ l ∨ (x = a ∧ (insertList lt a l).2 = true) := by
  induction l with
  | nil => simp [insertList]
  | cons b l ih =>
    simp only [insertList]
    split_ifs with h₁ h₂
    · simp [or_comm]
    · simp only [List.mem_cons, ih, or_assoc]
    · simp

theorem length_insertList {a : α} {l : List α} (h : (insertList lt a l).2 = true) :
    (insertList lt a l).1.length = l.length + 1 := by
  induction l with
  | nil => rfl
  | cons b l ih =>
    simp only [insertList] at h ⊢
    split_ifs at h ⊢ with h₁ h₂
    · rfl
    · rw [List.length_cons, ih h, List.length_cons]

/-- An insertion that takes place adds the element to the list. -/
theorem insertList_perm {a : α} {l : List α} (h : (insertList lt a l).2 = true) :
    (insertList lt a l).1.Perm (a :: l) := by
  induction l with
  | nil => exact List.Perm.refl _
  | cons b l ih =>
    simp only [insertList] at h ⊢
    split_ifs at h ⊢ with h₁ h₂
    · exact List.Perm.refl _
    · exact ((ih h).cons b).trans (List.Perm.swap a b l)

variable [IsTrans α lt]

theorem sorted_insertList {a : α} {l : List α} (h : l.Pairwise lt) :
    (insertList lt a l).1.Pairwise lt := by
  induction l with
  | nil => simp [insertList]
  | cons b l ih =>
    obtain ⟨hb, hl⟩ := List.pairwise_cons.mp h
    simp only [insertList]
    split_ifs with h₁ h₂
    · refine List.pairwise_cons.mpr ⟨fun x hx => ?_, h⟩
      rcases List.mem_cons.mp hx with rfl | hx
      · exact h₁
      · exact trans_of lt h₁ (hb x hx)
    · refine List.pairwise_cons.mpr ⟨fun x hx => ?_, ih hl⟩
      rcases mem_insertList.mp hx with hx | ⟨rfl, -⟩
      · exact hb x hx
      · exact h₂
    · exact h

def insert (s : OrdSet lt) (a : α) : OrdSet lt × Bool :=
  (⟨(insertList lt a s.toList).1, sorted_insertList s.sorted⟩, (insertList lt a s.toList).2)

theorem mem_insert {s : OrdSet lt} {a x : α} :
    x ∈ (s.insert a).1 ↔ x ∈ s ∨ (x = a ∧ (s.insert a).2 = true) :=
  mem_insertList

theorem insertList_snd {a : α} {l : List α} (h : l.Pairwise lt) :
    (insertList lt a l).2 = true ↔ ∀ b ∈ l, ¬ Equiv lt a b := by
  induction l with
  | nil => simp [insertList]
  | cons b l ih =>
    obtain ⟨hb, hl⟩ := List.pairwise_cons.mp h
    simp only [insertList]
    split_ifs with h₁ h₂
    · refine iff_of_true rfl fun x hx hE => ?_
      rcases List.mem_cons.mp hx with rfl | hx
      · exact hE.1 h₁
      · exact hE.1 (trans_of lt h₁ (hb x hx))
    · rw [ih hl, List.forall_mem_cons]
      exact ⟨fun h' => ⟨fun hE => hE.2 h₂, h'⟩, fun h' => h'.2⟩
    · exact iff_of_false (by simp) fun h' => h' b List.mem_cons_self ⟨h₁, h₂⟩

theorem length_insert {s : OrdSet lt} {a : α} (h : (s.insert a).2 = true) :
    (s.insert a).1.toList.length = s.toList.length + 1 :=
  length_insertList h

theorem insert_perm {s : OrdSet lt} {a : α} (h : (s.insert a).2 = true) :
    (s.insert a).1.toList.Perm (a :: s.toList) :=
  insertList_perm h

/-- The insertion takes place exactly when no equivalent element is there. -/
theorem insert_snd {s : OrdSet lt} {a : α} :
    (s.insert a).2 = true ↔ ∀ b ∈ s, ¬ Equiv lt a b :=
  insertList_snd s.sorted

end Insert

theorem nodup_of_sorted [Std.Irrefl lt] {l : List α} (h : l.Pairwise lt) : l.Nodup :=
  List.Pairwise.imp (fun {a b} (hab : lt a b) (e : a = b) => irrefl_of lt b (e ▸ hab)) h

/-- Two sets with the same elements are the same. -/
theorem toList_eq_of_mem_iff [IsTrans α lt] [Std.Irrefl lt] {l₁ l₂ : List α}
    (h₁ : l₁.Pairwise lt) (h₂ : l₂.Pairwise lt) (h : ∀ a, a ∈ l₁ ↔ a ∈ l₂) : l₁ = l₂ := by
  refine List.Perm.eq_of_pairwise (fun a b _ _ hab hba => ?_) h₁ h₂
    ((List.perm_ext_iff_of_nodup (nodup_of_sorted h₁) (nodup_of_sorted h₂)).mpr h)
  exact absurd (trans_of lt hab hba) (irrefl_of lt a)

end OrdSet
