import Mathlib

/-!
# Choosing a threshold

Two lists of elements with a key in a linear order, and a threshold on the keys that costs one for
each element of the first list below it and one for each element of the second list not below it.
The cost changes at keys only (`cost_eq_of_lt_iff`), so the least cost over a list of candidates
with every key in it is the least cost over all thresholds, but for the thresholds above every
candidate. Those cost the length of the first list (`optimal_iff`).

In a sorted list the elements below a threshold are a prefix, and an index is in the prefix if it is
less than their number (`getElem_iff_lt_countP`).
-/

namespace Threshold

/-! ## Prefixes of sorted lists -/

section Prefix

variable {β : Type} {p : β → Bool} {l : List β}

/-- If what `p` holds of is a prefix, `p` holds at the indices less than its length. -/
theorem getElem_iff_lt_countP (h : l.Pairwise fun x y => p y = true → p x = true) {i : ℕ}
    (hi : i < l.length) : p l[i] = true ↔ i < l.countP p := by
  induction l generalizing i with
  | nil => exact absurd hi (Nat.not_lt_zero i)
  | cons a l ih =>
    obtain ⟨ha, hl⟩ := List.pairwise_cons.mp h
    by_cases hp : p a = true
    · rw [List.countP_cons_of_pos hp]
      cases i with
      | zero => simp [hp]
      | succ i =>
        rw [List.getElem_cons_succ, ih hl (Nat.lt_of_succ_lt_succ hi), Nat.succ_lt_succ_iff]
    · -- the head is out, so everything is
      have hnone : ∀ b ∈ a :: l, ¬ p b = true := by
        intro b hb
        rcases List.mem_cons.mp hb with rfl | hb
        · exact hp
        · exact fun hpb => hp (ha b hb hpb)
      rw [List.countP_eq_zero.mpr hnone]
      exact iff_of_false (hnone _ (List.getElem_mem hi)) (Nat.not_lt_zero i)

end Prefix

/-! ## The cost of a threshold -/

variable {α β : Type} [LinearOrder α] (key : β → α) (below above : List β)

/-- The elements of `below` that are below `f`, and those of `above` that are not. -/
def cost (f : α) : ℕ :=
  below.countP (fun b => decide (key b < f)) + above.countP (fun b => decide (f ≤ key b))

variable {key below above}

/-- Thresholds that no key tells apart cost the same. -/
theorem cost_eq_of_lt_iff {f v : α} (h : ∀ b ∈ below ++ above, key b < f ↔ key b < v) :
    cost key below above f = cost key below above v := by
  have hb : below.countP (fun b => decide (key b < f)) =
      below.countP (fun b => decide (key b < v)) := by
    refine List.countP_congr fun b hb => ?_
    rw [decide_eq_true_eq, decide_eq_true_eq]
    exact h b (List.mem_append_left _ hb)
  have ha : above.countP (fun b => decide (f ≤ key b)) =
      above.countP (fun b => decide (v ≤ key b)) := by
    refine List.countP_congr fun b hb => ?_
    rw [decide_eq_true_eq, decide_eq_true_eq, ← not_lt, ← not_lt]
    exact not_congr (h b (List.mem_append_right _ hb))
  rw [cost, cost, hb, ha]

/-- Above every key, the threshold costs the first list. -/
theorem cost_of_lt {f : α} (h : ∀ b ∈ below ++ above, key b < f) :
    cost key below above f = below.length := by
  have hb : below.countP (fun b => decide (key b < f)) = below.length :=
    List.countP_eq_length.mpr fun b hb => decide_eq_true (h b (List.mem_append_left _ hb))
  have ha : above.countP (fun b => decide (f ≤ key b)) = 0 :=
    List.countP_eq_zero.mpr fun b hb hle =>
      absurd (h b (List.mem_append_right _ hb)) (not_lt.mpr (of_decide_eq_true hle))
  rw [cost, hb, ha, Nat.add_zero]

/-- A threshold costs no more than the first list if and only if it keeps out no more of the second
list than it spares of the first. -/
theorem cost_le_length_iff {f : α} : cost key below above f ≤ below.length ↔
    above.countP (fun b => decide (f ≤ key b)) ≤ below.countP (fun b => decide (f ≤ key b)) := by
  have hlen := List.length_eq_countP_add_countP (fun b => decide (key b < f)) (l := below)
  have hnot : below.countP (fun b => decide (¬ decide (key b < f) = true)) =
      below.countP (fun b => decide (f ≤ key b)) :=
    List.countP_congr fun b _ => by simp
  rw [hnot] at hlen
  rw [cost, hlen]
  omega

variable {candidates : List α} (hkeys : ∀ b ∈ below ++ above, key b ∈ candidates)

include hkeys

/-- A threshold not above every candidate costs what some candidate costs. -/
theorem exists_cost_eq {f : α} (h : ∃ v ∈ candidates, f ≤ v) :
    ∃ v ∈ candidates, cost key below above f = cost key below above v := by
  obtain ⟨u, hu, hfu⟩ := h
  have hne : (candidates.toFinset.filter (f ≤ ·)).Nonempty :=
    ⟨u, Finset.mem_filter.mpr ⟨List.mem_toFinset.mpr hu, hfu⟩⟩
  -- the least candidate that is not below `f`
  obtain ⟨v, hv, hmin⟩ := Finset.exists_min_image _ id hne
  obtain ⟨hv, hfv⟩ := Finset.mem_filter.mp hv
  refine ⟨v, List.mem_toFinset.mp hv, cost_eq_of_lt_iff fun b hb => ?_⟩
  constructor
  · exact fun hlt => hlt.trans_le hfv
  · intro hlt
    by_contra hle
    have hmem := Finset.mem_filter.mpr ⟨List.mem_toFinset.mpr (hkeys b hb), not_lt.mp hle⟩
    exact absurd hlt (not_lt.mpr (hmin _ hmem))

/-- The best candidate is the best threshold if and only if no threshold is above every candidate,
or one of the candidates costs no more than the first list. -/
theorem optimal_iff {best : α} (hmem : best ∈ candidates)
    (hmin : ∀ v ∈ candidates, cost key below above best ≤ cost key below above v) :
    (∀ f, cost key below above best ≤ cost key below above f) ↔
      (∃ v ∈ candidates, IsTop v) ∨ ∃ v ∈ candidates,
        above.countP (fun b => decide (v ≤ key b)) ≤
          below.countP (fun b => decide (v ≤ key b)) := by
  have hall : (∃ v ∈ candidates, cost key below above v ≤ below.length) ↔
      cost key below above best ≤ below.length :=
    ⟨fun ⟨v, hv, hle⟩ => (hmin v hv).trans hle, fun hle => ⟨best, hmem, hle⟩⟩
  simp only [← cost_le_length_iff]
  rw [hall]
  constructor
  · intro hopt
    by_cases htop : ∃ v ∈ candidates, IsTop v
    · exact Or.inl htop
    · -- the largest candidate is not the top, so some threshold is above them all
      have hne : candidates.toFinset.Nonempty := ⟨best, List.mem_toFinset.mpr hmem⟩
      obtain ⟨u, hu, hmax⟩ := Finset.exists_max_image _ id hne
      have hu' : ¬ IsTop u := fun h => htop ⟨u, List.mem_toFinset.mp hu, h⟩
      obtain ⟨f, hf⟩ := not_forall.mp hu'
      rw [not_le] at hf
      have hcost : cost key below above f = below.length :=
        cost_of_lt fun b hb => (hmax _ (List.mem_toFinset.mpr (hkeys b hb))).trans_lt hf
      exact Or.inr (hcost ▸ hopt f)
  · intro h f
    by_cases hf : ∃ v ∈ candidates, f ≤ v
    · obtain ⟨v, hv, hcost⟩ := exists_cost_eq hkeys hf
      rw [hcost]
      exact hmin v hv
    · have hlt : ∀ v ∈ candidates, v < f := fun v hv => not_le.mp fun hle => hf ⟨v, hv, hle⟩
      rcases h with ⟨v, hv, htop⟩ | hle
      · exact absurd (hlt v hv) (not_lt.mpr (htop f))
      · rw [cost_of_lt fun b hb => hlt _ (hkeys b hb)]
        exact hle

end Threshold
