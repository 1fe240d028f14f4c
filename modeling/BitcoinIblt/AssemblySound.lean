import BitcoinIblt.GroupCheck

/-!
# The assembly loop on arbitrary slices

The loop of `recover_block` does what the check of `decode_block` does, and besides rebuilds every
complete group: it fails with an allocation, or gives up, or goes on with the check
(`asmLoop_check`). So the accesses to `transaction` are in bounds, and a run that ends with nothing
left over has cut the slices into complete groups (`assembly_sound`).
-/

namespace BitcoinIblt

variable {H : Hashes} {A : Allocator}

/-! ## The loop and the check -/

theorem fits_of_succeeds (hA : A.Succeeds) (tx : BitcoinTx) : tx.fits A = true := by
  unfold BitcoinTx.fits
  simp [hA _ _]

theorem rebuildTx_succeeds (hA : A.Succeeds) {slices : List TxSlice} (hne : slices ≠ []) :
    ∃ r, rebuildTx A slices = .ok r := by
  obtain ⟨first, tail, rfl⟩ := List.exists_cons_of_ne_nil hne
  obtain ⟨s, rest, hflat, -⟩ := flat_spelling first tail
  rw [rebuildTx_eq A hne hflat, if_pos (fits_of_succeeds hA _)]
  exact ⟨_, rfl⟩

/-- What the check carries: the transactions that were recovered are forgotten. -/
def AsmState.forget (st : AsmState) : AsmState := { st with recovered := [] }

theorem AsmInv.forget {st : AsmState} {cur : List TxSlice} (h : AsmInv H st cur) :
    AsmInv H st.forget cur :=
  h.imp_right fun ⟨hold, hlt⟩ => ⟨⟨hold.group, hold.count, hold.le, hold.take⟩, hlt⟩

theorem AsmInv.of_forget {st : AsmState} {cur : List TxSlice} (h : AsmInv H st.forget cur) :
    AsmInv H st cur :=
  h.imp_right fun ⟨hold, hlt⟩ => ⟨⟨hold.group, hold.count, hold.le, hold.take⟩, hlt⟩

/-- The first half of the body does not look at what was recovered. -/
theorem placeSlice_forget (st : AsmState) (s : TxSlice) :
    placeSlice H st.forget s = (placeSlice H st s).map (Option.map AsmState.forget) := by
  unfold placeSlice
  by_cases hcount : st.count = 0
  · rw [if_pos hcount, if_pos (show st.forget.count = 0 from hcount)]
    by_cases hbase : s.getTxid48.fragBase H ≠ s.fragid
    · rw [if_pos hbase, if_pos hbase]
      rfl
    · rw [if_neg hbase, if_neg hbase]
      cases s.slicesExpected with
      | error f => rfl
      | ok num =>
        rw [ok_bind, ok_bind]
        split_ifs <;> rfl
  · rw [if_neg hcount, if_neg (show ¬ st.forget.count = 0 from hcount),
      show st.forget.last = st.last from rfl]
    cases st.last with
    | error f => rfl
    | ok last =>
      rw [ok_bind, ok_bind]
      by_cases hroom : st.transaction.length ≤ st.count
      · rw [if_pos hroom, if_pos (show st.forget.transaction.length ≤ st.forget.count from hroom)]
        split_ifs <;> rfl
      · rw [if_neg hroom, if_neg (show ¬ st.forget.transaction.length ≤ st.forget.count from hroom)]
        split_ifs <;> rfl

/-- How a run of the loop ends, where the check of the same slices ends as `check`. -/
def EndsLike (A : Allocator) (check run : Run (Option AsmState)) : Prop :=
  (run = .error .badArrayNewLength ∧ ¬ A.Succeeds) ∨ run = .ok none ∨
    ∃ st, run = .ok (some st) ∧ check = .ok (some st.forget)

theorem asmStep_check {st : AsmState} {cur : List TxSlice} (h : AsmInv H st cur) (s : TxSlice) :
    EndsLike A (checkStep H st.forget s) (asmStep H A st s) := by
  unfold checkStep asmStep
  rw [placeSlice_forget]
  rcases placeSlice_spec h s with hp | ⟨st', hp, hold⟩
  · rw [hp]
    exact Or.inr (Or.inl rfl)
  · rw [hp, ok_bind]
    show EndsLike A (if st'.count = st'.transaction.length then _ else _) (completeTx A st')
    unfold completeTx
    by_cases hfull : st'.count = st'.transaction.length
    · rw [if_pos hfull, if_pos hfull]
      have hpos := hold.group.length_pos
      have hcount := hold.count
      have hne : st'.transaction ≠ [] := List.ne_nil_of_length_pos (by omega)
      rcases rebuildTx_cases A hne with hr | hr | ⟨tx, hr⟩
      · rw [hr]
        refine Or.inl ⟨rfl, fun hA => ?_⟩
        obtain ⟨r, hr'⟩ := rebuildTx_succeeds hA hne
        rw [hr] at hr'
        cases hr'
      · rw [hr]
        exact Or.inr (Or.inl rfl)
      · rw [hr]
        exact Or.inr (Or.inr ⟨_, rfl, rfl⟩)
    · rw [if_neg hfull, if_neg hfull]
      exact Or.inr (Or.inr ⟨st', rfl, rfl⟩)

/-- A turn leaves an open group or none. -/
theorem asmStep_inv {st st' : AsmState} {cur : List TxSlice} (h : AsmInv H st cur) {s : TxSlice}
    (hs : asmStep H A st s = .ok (some st')) : ∃ cur', AsmInv H st' cur' := by
  rcases asmStep_check (A := A) h s with ⟨hr, -⟩ | hr | ⟨st₁, hr, hcheck⟩
  · rw [hs] at hr
    cases hr
  · rw [hs] at hr
    cases hr
  · rw [hs] at hr
    cases hr
    rcases checkStep_spec h.forget s with hn | ⟨st₁, cur₁, hn, hinv, -⟩
    · rw [hcheck] at hn
      cases hn
    · rw [hcheck] at hn
      cases hn
      exact ⟨cur₁, hinv.of_forget⟩

/-- The loop ends as the check does, unless it stops before. -/
theorem asmLoop_check {st : AsmState} {cur : List TxSlice} (h : AsmInv H st cur)
    (l : List TxSlice) : EndsLike A (checkLoop H l st.forget) (asmLoop H A l st) := by
  induction l generalizing st cur with
  | nil => exact Or.inr (Or.inr ⟨st, rfl, rfl⟩)
  | cons s l ih =>
    rw [asmLoop, checkLoop]
    rcases asmStep_check (A := A) h s with ⟨hr, hA⟩ | hr | ⟨st', hr, hcheck⟩
    · rw [hr]
      exact Or.inl ⟨rfl, hA⟩
    · rw [hr]
      exact Or.inr (Or.inl rfl)
    · obtain ⟨cur', hst'⟩ := asmStep_inv h hr
      rw [hr, hcheck]
      exact ih hst'

/-! ## Accesses -/

section Accesses

/-- The places of `transaction` that one turn may read or write, with the size of the vector. A turn
that starts a group writes to the vector that it has just made. -/
def asmAccesses (st : AsmState) (s : TxSlice) : List (ℕ × ℕ) :=
  if st.count = 0 then
    match s.slicesExpected with
    | .ok num => if num = 0 ∨ 0xffff < num.toNat then [] else [(0, num.toNat)]
    | .error _ => []
  else [(st.count - 1, st.transaction.length), (st.count, st.transaction.length)]

variable (H A)

/-- The places that the turns of the loop access, one turn after the other. -/
def loopAccesses : List TxSlice → AsmState → List (ℕ × ℕ)
  | [], _ => []
  | s :: slices, st =>
    asmAccesses st s ++
      match asmStep H A st s with
      | .ok (some st') => loopAccesses slices st'
      | _ => []

variable {H A}

theorem asmAccesses_lt {st : AsmState} {cur : List TxSlice} (h : AsmInv H st cur) (s : TxSlice) :
    ∀ a ∈ asmAccesses st s, a.1 < a.2 := by
  intro a ha
  unfold asmAccesses at ha
  rcases h with ⟨hcount, -⟩ | ⟨h, hlt⟩
  · obtain ⟨num, hnum⟩ := slicesExpected_returns s
    rw [if_pos hcount, hnum] at ha
    simp only at ha
    split_ifs at ha with hrange
    · exact absurd ha List.not_mem_nil
    · rw [List.mem_singleton.mp ha]
      refine Nat.pos_of_ne_zero fun hz => hrange (Or.inl ?_)
      exact BitVec.eq_of_toNat_eq hz
  · have hpos := h.group.length_pos
    have hcount := h.count
    rw [if_neg (by omega)] at ha
    simp only [List.mem_cons, List.not_mem_nil, or_false] at ha
    rcases ha with rfl | rfl
    · show st.count - 1 < st.transaction.length
      omega
    · show st.count < st.transaction.length
      omega

theorem loopAccesses_lt {st : AsmState} {cur : List TxSlice} (h : AsmInv H st cur)
    (l : List TxSlice) : ∀ a ∈ loopAccesses H A l st, a.1 < a.2 := by
  induction l generalizing st cur with
  | nil => exact fun a ha => absurd ha List.not_mem_nil
  | cons s l ih =>
    intro a ha
    rw [loopAccesses, List.mem_append] at ha
    rcases ha with ha | ha
    · exact asmAccesses_lt h s a ha
    · split at ha
      · rename_i st' hs
        obtain ⟨cur', hst'⟩ := asmStep_inv h hs
        exact ih hst' a ha
      · exact absurd ha List.not_mem_nil

end Accesses

/-! ## Runs -/

/-- No access of the loop is stopped. -/
theorem asmLoop_ne_outOfRange (l : List TxSlice) :
    asmLoop H A l ⟨0, [], []⟩ ≠ .error .outOfRange := by
  intro herr
  rcases asmLoop_check (A := A) (asmInv_start (H := H)) l with ⟨hr, -⟩ | hr | ⟨st, hr, -⟩
  · rw [herr] at hr
    cases hr
  · rw [herr] at hr
    cases hr
  · rw [herr] at hr
    cases hr

/-- A run that ends with nothing left over reads whole groups, as the check does. -/
theorem asmLoop_groups {st : AsmState} {l : List TxSlice}
    (hrun : asmLoop H A l ⟨0, [], []⟩ = .ok (some st)) (hcount : st.count = 0) :
    ∃ groups : List (List TxSlice), l = groups.flatten ∧ ∀ g ∈ groups, IsGroup H g := by
  rcases asmLoop_check (A := A) (asmInv_start (H := H)) l with ⟨hr, -⟩ | hr | ⟨st', hr, hcheck⟩
  · rw [hrun] at hr
    cases hr
  · rw [hrun] at hr
    cases hr
  · rw [hrun] at hr
    cases hr
    exact checkLoop_groups asmInv_start hcheck hcount

/-- **Reassembly.** For every set of slices the accesses of the loop to `transaction` are inside the
vector. If it ends with `count == 0`, the set falls apart into complete groups, one after the
other. -/
theorem assembly_sound (H : Hashes) (A : Allocator) (slices : OrdSet TxSlice.lt) :
    asmLoop H A slices.toList ⟨0, [], []⟩ ≠ .error .outOfRange ∧
      (∀ a ∈ loopAccesses H A slices.toList ⟨0, [], []⟩, a.1 < a.2) ∧
      ∀ st, asmLoop H A slices.toList ⟨0, [], []⟩ = .ok (some st) → st.count = 0 →
        ∃ groups : List (List TxSlice), slices.toList = groups.flatten ∧
          groups.Pairwise List.Disjoint ∧ ∀ g ∈ groups, IsGroup H g := by
  refine ⟨asmLoop_ne_outOfRange _, loopAccesses_lt asmInv_start _, ?_⟩
  intro st hrun hcount
  obtain ⟨groups, hl, hgroups⟩ := asmLoop_groups hrun hcount
  have hnodup := OrdSet.nodup_of_sorted slices.sorted
  rw [hl] at hnodup
  exact ⟨groups, hl, (List.nodup_flatten.mp hnodup).2, hgroups⟩

end BitcoinIblt
