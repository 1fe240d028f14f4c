import BitcoinIblt.FeeEstimate

/-!
# The fees that are tried

Called again and again, `next_fee` goes through the fees that occur, but for zero, from the lowest
to the highest. The indices it leaves are the numbers of transactions below the new fee, so that
`estimate_fees` reads the exceptions at that fee off them (`feeScan_exact`).
-/

namespace BitcoinIblt

/-- What the calls of `next_fee` leave that return true, up to the one that returns false. -/
def feeScan (a b : List Tx) (c : FeeCursor) : Run (List FeeCursor) :=
  match _h : nextFee a b c with
  | .error f => .error f
  | .ok (false, _) => .ok []
  | .ok (true, c') => do
    let cs ← feeScan a b c'
    return c' :: cs
termination_by 2 ^ 64 - c.fee.toNat
decreasing_by
  have hlt := BitVec.lt_def.mp (fee_lt_of_nextFee _h)
  omega

section Scan

variable {a b : List Tx}

theorem feeScan_of_false {c c' : FeeCursor} (h : nextFee a b c = .ok (false, c')) :
    feeScan a b c = .ok [] := by
  rw [feeScan]
  split <;> simp_all

theorem feeScan_of_true {c c' : FeeCursor} (h : nextFee a b c = .ok (true, c'))
    {cs : List FeeCursor} (hcs : feeScan a b c' = .ok cs) : feeScan a b c = .ok (c' :: cs) := by
  rw [feeScan]
  split <;> simp_all

/-- The indices after a call are the numbers of transactions below the new fee. -/
theorem FeeCursor.At.next {c : FeeCursor} {x : U64} (hx : IsNextFee (a ++ b) c.fee (some x)) :
    FeeCursor.At a b ⟨feesUpTo a c.fee, feesUpTo b c.fee, x⟩ :=
  ⟨hx.feesUpTo_eq fun _ ht => List.mem_append_left _ ht,
    hx.feesUpTo_eq fun _ ht => List.mem_append_right _ ht⟩

theorem FeeCursor.At.start : FeeCursor.At a b ⟨0, 0, 0⟩ := searched_start.cursor

/-- The fees above the next one are those above the last but the next one itself. -/
theorem IsNextFee.above_iff {l : List Tx} {fee x f : U64} (h : IsNextFee l fee (some x)) :
    (fee < f ∧ ∃ t ∈ l, t.satoshiPerByte = f) ↔
      f = x ∨ x < f ∧ ∃ t ∈ l, t.satoshiPerByte = f := by
  obtain ⟨hlt, hmem, hall⟩ := h
  constructor
  · rintro ⟨hf, t, ht, rfl⟩
    rcases hall t ht with hle | hle
    · exact absurd hle (BitVec.not_le.mpr hf)
    · by_cases heq : t.satoshiPerByte = x
      · exact Or.inl heq
      · exact Or.inr ⟨BitVec.lt_of_le_ne hle (Ne.symm heq), t, ht, rfl⟩
  · rintro (rfl | ⟨hf, hocc⟩)
    · exact ⟨hlt, hmem⟩
    · exact ⟨BitVec.lt_trans hlt hf, hocc⟩

/-- From any cursor, the calls go through the fees above it. -/
theorem feeScan_ok (ha : FeeSorted a) (hb : FeeSorted b) {c : FeeCursor} (hc : c.At a b) :
    ∃ cs, feeScan a b c = .ok cs ∧ (cs.map FeeCursor.fee).Pairwise (· < ·) ∧
      (∀ f, f ∈ cs.map FeeCursor.fee ↔ c.fee < f ∧ ∃ t ∈ a ++ b, t.satoshiPerByte = f) ∧
      ∀ c' ∈ cs, c'.At a b := by
  induction hn : 2 ^ 64 - c.fee.toNat using Nat.strong_induction_on generalizing c with
  | _ n ih =>
    subst hn
    obtain ⟨x, hx, hnext⟩ := nextFee_ok ha hb hc
    cases x with
    | none =>
      refine ⟨[], feeScan_of_false hnext, List.Pairwise.nil, fun f => ?_, by simp⟩
      refine iff_of_false List.not_mem_nil ?_
      rintro ⟨hf, t, ht, rfl⟩
      exact absurd (hx t ht) (BitVec.not_le.mpr hf)
    | some x =>
      have hlt := BitVec.lt_def.mp hx.1
      have hat := FeeCursor.At.next hx
      obtain ⟨cs, hcs, hsorted, hmem, hall⟩ := ih _ (by show 2 ^ 64 - x.toNat < _; omega) hat rfl
      refine ⟨_, feeScan_of_true hnext hcs, ?_, fun f => ?_, List.forall_mem_cons.mpr ⟨hat, hall⟩⟩
      · rw [List.map_cons]
        exact List.pairwise_cons.mpr ⟨fun f hf => ((hmem f).mp hf).1, hsorted⟩
      · rw [List.map_cons, List.mem_cons, hmem, hx.above_iff]
        rfl

end Scan

/-- **The thresholds.** On sorted arrays, the calls of `next_fee` from zero visit the fees that
occur, but for zero, each once and in increasing order, and the last one returns false; no assertion
fails. The indices after each are the numbers of transactions below the fee, which makes the cost
that `estimate_fees` takes the number of exceptions. -/
theorem feeScan_exact {a b : List Tx} (ha : FeeSorted a) (hb : FeeSorted b) :
    ∃ cs, feeScan a b ⟨0, 0, 0⟩ = .ok cs ∧ (cs.map FeeCursor.fee).Pairwise (· < ·) ∧
      (∀ f, f ∈ cs.map FeeCursor.fee ↔ f ≠ 0 ∧ ∃ t ∈ a ++ b, t.satoshiPerByte = f) ∧
      ∀ c ∈ cs, c.ai = feesBelow a c.fee ∧ c.bi = feesBelow b c.fee ∧
        c.ai + (b.length - c.bi) = exceptions a b c.fee := by
  obtain ⟨cs, hcs, hsorted, hmem, hall⟩ := feeScan_ok ha hb FeeCursor.At.start
  refine ⟨cs, hcs, hsorted, fun f => ?_, fun c hc => ?_⟩
  · rw [hmem]
    exact and_congr_left' (BitVec.pos_iff_ne_zero f)
  · obtain ⟨hai, hbi⟩ := hall c hc
    exact ⟨hai, hbi, by rw [exceptions_eq, hai, hbi]⟩

theorem feeScan_exact_paidTx : FeeSorted [paidTx 0 0, paidTx 7 0] ∧
    FeeSorted [paidTx 4 0, paidTx 7 0] ∧
    ∃ cs, feeScan [paidTx 0 0, paidTx 7 0] [paidTx 4 0, paidTx 7 0] ⟨0, 0, 0⟩ = .ok cs ∧
      cs.map FeeCursor.fee = [4, 7] := by
  have hrate : ∀ fee, (paidTx fee 0).satoshiPerByte = fee := by
    intro fee
    rw [Tx.satoshiPerByte, length_paidTx]
    exact BitVec.shiftLeft_zero fee
  have ha : FeeSorted [paidTx 0 0, paidTx 7 0] :=
    List.pairwise_pair.mpr (by rw [hrate, hrate]; decide)
  have hb : FeeSorted [paidTx 4 0, paidTx 7 0] :=
    List.pairwise_pair.mpr (by rw [hrate, hrate]; decide)
  obtain ⟨cs, hcs, hsorted, hmem, -⟩ := feeScan_exact ha hb
  refine ⟨ha, hb, cs, hcs, ?_⟩
  have hlist : ([4, 7] : List U64).Pairwise (· < ·) := by decide
  have hperm : (cs.map FeeCursor.fee).Perm [4, 7] := by
    refine (List.perm_ext_iff_of_nodup (hsorted.imp BitVec.ne_of_lt)
      (hlist.imp BitVec.ne_of_lt)).mpr fun f => ?_
    rw [hmem]
    simp only [List.cons_append, List.nil_append, List.mem_cons, List.not_mem_nil, or_false,
      exists_eq_or_imp, exists_eq_left, hrate]
    grind
  exact hperm.eq_of_pairwise
    (fun a b _ _ h h' => absurd (BitVec.lt_trans h h') (BitVec.lt_irrefl a)) hsorted hlist

end BitcoinIblt
