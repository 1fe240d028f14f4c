import BitcoinIblt.Tx
import BitcoinIblt.Lib.Threshold

/-!
# Estimating the fee

`next_fee` and `estimate_fees` of `iblt-selection-heuristic.cpp`: the sender sorts the fees of the
block and of what only its mempool has, goes through the fees in increasing order, and keeps the
first one that leaves the fewest exceptions. The two indices of the search are the numbers of
transactions below the fee (`FeeCursor.At`).

"We aim to minimize the number of exceptions", but no fee above the largest one is ever tried: where
every fee that occurs, and zero, costs more exceptions than listing the whole block, the search
returns one of them (`estimateFees_optimal_iff`).
-/

namespace BitcoinIblt

/-! ## The code -/

/-- "Sorts low to high". -/
def feeCompare (a b : Tx) : Bool := decide (a.satoshiPerByte < b.satoshiPerByte)

/-- `std::sort(vec.begin(), vec.end(), fee_compare)` -/
def sortFees (vec : List Tx) : List Tx := vec.insertionSort fun a b => ¬ feeCompare b a = true

/-- `while (i < a.size() && a[i]->satoshi_per_byte() == fee) i++;` -/
def skipFee (a : List Tx) (fee : U64) (i : ℕ) : ℕ :=
  if h : i < a.length then
    if a[i].satoshiPerByte = fee then skipFee a fee (i + 1) else i
  else i
termination_by a.length - i

/-- `assert(i == a.size() || a[i]->satoshi_per_byte() > fee)`, and the fee at `i`, if any. -/
def feeAbove (a : List Tx) (fee : U64) (i : ℕ) : Run (Option U64) :=
  if i = a.length then return none
  else if h : i < a.length then
    if fee < a[i].satoshiPerByte then return some a[i].satoshiPerByte
    else throw .assertion
  else throw .outOfRange

/-- The two indices and the fee. -/
structure FeeCursor where
  ai : ℕ
  bi : ℕ
  fee : U64

/-- "Find next fee which is greater." -/
def nextFee (a b : List Tx) (c : FeeCursor) : Run (Bool × FeeCursor) := do
  let ai := skipFee a c.fee c.ai
  let bi := skipFee b c.fee c.bi
  let fa ← feeAbove a c.fee ai
  let fb ← feeAbove b c.fee bi
  match fa, fb with
  | none, none => return (false, ⟨ai, bi, c.fee⟩)
  | none, some y => return (true, ⟨ai, bi, y⟩)
  | some x, none => return (true, ⟨ai, bi, x⟩)
  | some x, some y => return (true, ⟨ai, bi, if x < y then x else y⟩)

/-- `best_fee` and `num_txs_excepted`. -/
structure FeeEstimate where
  bestFee : U64
  numTxsExcepted : ℕ

theorem of_feeAbove {a : List Tx} {fee x : U64} {i : ℕ} (h : feeAbove a fee i = .ok (some x)) :
    fee < x := by
  unfold feeAbove at h
  split_ifs at h with h₁ h₂ h₃
  · cases h
  · cases h
    exact h₃

/-- A fee that is found is greater. -/
theorem fee_lt_of_nextFee {a b : List Tx} {c c' : FeeCursor}
    (h : nextFee a b c = .ok (true, c')) : c.fee < c'.fee := by
  obtain ⟨fa, hfa, h⟩ := of_bind_ok h
  obtain ⟨fb, hfb, h⟩ := of_bind_ok h
  cases fa with
  | none =>
    cases fb with
    | none => cases h
    | some y => cases h; exact of_feeAbove hfb
  | some x =>
    cases fb with
    | none => cases h; exact of_feeAbove hfa
    | some y =>
      cases h
      show c.fee < if x < y then x else y
      split_ifs
      · exact of_feeAbove hfa
      · exact of_feeAbove hfb

/-- The loop over the fees. -/
def estimateLoop (bvec mvec : List Tx) (c : FeeCursor) (best : FeeEstimate) : Run U64 :=
  match _h : nextFee bvec mvec c with
  | .error f => .error f
  | .ok (false, _) => .ok best.bestFee
  | .ok (true, c') =>
    let cost := c'.ai + (mvec.length - c'.bi)
    estimateLoop bvec mvec c' (if cost < best.numTxsExcepted then ⟨c'.fee, cost⟩ else best)
termination_by 2 ^ 64 - c.fee.toNat
decreasing_by
  have hlt := BitVec.lt_def.mp (fee_lt_of_nextFee _h)
  omega

def estimateFees (block mempool : Txmap) : Run U64 :=
  let bvec := sortFees (block.entries.map Prod.snd)
  -- "Consider things in our mempool *not* in block."
  let mvec := sortFees ((mempool.entries.filter fun p => block.find p.1 = none).map Prod.snd)
  -- "We can set fee to zero, and simply list everything only in mempool to be excluded."
  estimateLoop bvec mvec ⟨0, 0, 0⟩ ⟨0, mvec.length⟩
/-! ## Sorted fees -/

/-- Sorted by fee. -/
def FeeSorted (a : List Tx) : Prop := a.Pairwise fun x y => x.satoshiPerByte ≤ y.satoshiPerByte

theorem sortFees_perm (vec : List Tx) : (sortFees vec).Perm vec := List.perm_insertionSort _ vec

theorem sortFees_sorted (vec : List Tx) : FeeSorted (sortFees vec) := by
  let r : Tx → Tx → Prop := fun a b => ¬ feeCompare b a = true
  have hr : ∀ a b, r a b ↔ a.satoshiPerByte ≤ b.satoshiPerByte := fun a b => by
    simp [r, feeCompare, BitVec.not_lt]
  have htotal : Std.Total r := ⟨fun a b => by
    rw [hr, hr, BitVec.le_def, BitVec.le_def]
    exact le_total _ _⟩
  have htrans : IsTrans Tx r := ⟨fun a b c hab hbc => by
    rw [hr, BitVec.le_def] at *
    exact hab.trans hbc⟩
  exact (List.pairwise_insertionSort r vec).imp fun h => (hr _ _).mp h

/-- How many are below the fee. -/
def feesBelow (a : List Tx) (fee : U64) : ℕ := a.countP fun t => decide (t.satoshiPerByte < fee)

/-- How many are not above the fee. -/
def feesUpTo (a : List Tx) (fee : U64) : ℕ := a.countP fun t => decide (t.satoshiPerByte ≤ fee)

section Sorted

variable {a b : List Tx} {fee : U64} {i : ℕ}

theorem getElem_lt_iff (h : FeeSorted a) (hi : i < a.length) :
    a[i].satoshiPerByte < fee ↔ i < feesBelow a fee := by
  have hmono : a.Pairwise fun x y => decide (y.satoshiPerByte < fee) = true →
      decide (x.satoshiPerByte < fee) = true := by
    refine h.imp fun {x y} hxy hy => ?_
    rw [decide_eq_true_eq, BitVec.lt_def] at hy ⊢
    exact (BitVec.le_def.mp hxy).trans_lt hy
  rw [feesBelow, ← Threshold.getElem_iff_lt_countP hmono hi, decide_eq_true_eq]

theorem getElem_le_iff (h : FeeSorted a) (hi : i < a.length) :
    a[i].satoshiPerByte ≤ fee ↔ i < feesUpTo a fee := by
  have hmono : a.Pairwise fun x y => decide (y.satoshiPerByte ≤ fee) = true →
      decide (x.satoshiPerByte ≤ fee) = true := by
    refine h.imp fun {x y} hxy hy => ?_
    rw [decide_eq_true_eq, BitVec.le_def] at hy ⊢
    exact (BitVec.le_def.mp hxy).trans hy
  rw [feesUpTo, ← Threshold.getElem_iff_lt_countP hmono hi, decide_eq_true_eq]

theorem feesBelow_le_feesUpTo (a : List Tx) (fee : U64) : feesBelow a fee ≤ feesUpTo a fee := by
  refine List.countP_mono_left fun t _ h => ?_
  rw [decide_eq_true_eq] at h ⊢
  rw [BitVec.lt_def] at h
  exact BitVec.le_def.mpr h.le

/-- The loop goes past the fees that are equal. -/
theorem skipFee_eq (h : FeeSorted a) (hlo : feesBelow a fee ≤ i) (hhi : i ≤ feesUpTo a fee) :
    skipFee a fee i = feesUpTo a fee := by
  fun_induction skipFee a fee i with
  | case1 i hi heq ih =>
    have hlt : i < feesUpTo a fee :=
      (getElem_le_iff h hi).mp (BitVec.le_def.mpr (congrArg BitVec.toNat heq).le)
    exact ih (by omega) hlt
  | case2 i hi hne =>
    refine le_antisymm hhi (not_lt.mp fun hlt => ?_)
    have hle := BitVec.le_def.mp ((getElem_le_iff h hi).mpr hlt)
    have hge : ¬ a[i].satoshiPerByte < fee := fun h' => by
      have := (getElem_lt_iff h hi).mp h'
      omega
    rw [BitVec.lt_def] at hge
    exact hne (BitVec.eq_of_toNat_eq (by omega))
  | case3 i hi =>
    have hlen : feesUpTo a fee ≤ a.length := List.countP_le_length
    omega

/-- The fee that follows, if any. -/
def IsNextFee (a : List Tx) (fee : U64) : Option U64 → Prop
  | none => ∀ t ∈ a, t.satoshiPerByte ≤ fee
  | some x => fee < x ∧ (∃ t ∈ a, t.satoshiPerByte = x) ∧
      ∀ t ∈ a, t.satoshiPerByte ≤ fee ∨ x ≤ t.satoshiPerByte

/-- Behind the fees that are not above, the next one is found. -/
theorem feeAbove_ok (h : FeeSorted a) (fee : U64) :
    ∃ x, feeAbove a fee (feesUpTo a fee) = .ok x ∧ IsNextFee a fee x := by
  have hlen : feesUpTo a fee ≤ a.length := List.countP_le_length
  unfold feeAbove
  rcases hlen.eq_or_lt with heq | hlt
  · rw [if_pos heq]
    refine ⟨none, rfl, fun t ht => ?_⟩
    exact of_decide_eq_true (List.countP_eq_length.mp heq t ht)
  · have habove : fee < a[feesUpTo a fee].satoshiPerByte :=
      BitVec.not_le.mp fun hle => lt_irrefl _ ((getElem_le_iff h hlt).mp hle)
    rw [if_neg hlt.ne, dif_pos hlt, if_pos habove]
    refine ⟨_, rfl, habove, ⟨_, List.getElem_mem hlt, rfl⟩, fun t ht => ?_⟩
    obtain ⟨j, hj, rfl⟩ := List.getElem_of_mem ht
    by_cases hle : a[j].satoshiPerByte ≤ fee
    · exact Or.inl hle
    · have hjle : feesUpTo a fee ≤ j := not_lt.mp fun h' => hle ((getElem_le_iff h hj).mpr h')
      rcases hjle.eq_or_lt with heq | hlt'
      · subst heq
        exact Or.inr (BitVec.le_def.mpr le_rfl)
      · exact Or.inr (List.pairwise_iff_getElem.mp h _ _ hlt hj hlt')

theorem IsNextFee.append {x y : Option U64} (ha : IsNextFee a fee x) (hb : IsNextFee b fee y)
    {z : Option U64} (hz : z = match x, y with
      | none, none => none
      | none, some y => some y
      | some x, none => some x
      | some x, some y => some (if x < y then x else y)) : IsNextFee (a ++ b) fee z := by
  subst hz
  cases x with
  | none =>
    cases y with
    | none => exact fun t ht => (List.mem_append.mp ht).elim (ha t) (hb t)
    | some y =>
      obtain ⟨hlt, ⟨t, ht, heq⟩, hall⟩ := hb
      refine ⟨hlt, ⟨t, List.mem_append_right _ ht, heq⟩, fun t ht => ?_⟩
      exact (List.mem_append.mp ht).elim (fun h => Or.inl (ha t h)) (hall t)
  | some x =>
    obtain ⟨hltx, ⟨tx, htx, heqx⟩, hallx⟩ := ha
    cases y with
    | none =>
      refine ⟨hltx, ⟨tx, List.mem_append_left _ htx, heqx⟩, fun t ht => ?_⟩
      exact (List.mem_append.mp ht).elim (hallx t) fun h => Or.inl (hb t h)
    | some y =>
      obtain ⟨hlty, ⟨ty, hty, heqy⟩, hally⟩ := hb
      show IsNextFee (a ++ b) fee (some (if x < y then x else y))
      split_ifs with hxy
      · refine ⟨hltx, ⟨tx, List.mem_append_left _ htx, heqx⟩, fun t ht => ?_⟩
        rcases List.mem_append.mp ht with ht | ht
        · exact hallx t ht
        · refine (hally t ht).imp_right fun hle => ?_
          rw [BitVec.lt_def] at hxy
          exact BitVec.le_def.mpr (hxy.le.trans (BitVec.le_def.mp hle))
      · refine ⟨hlty, ⟨ty, List.mem_append_right _ hty, heqy⟩, fun t ht => ?_⟩
        rcases List.mem_append.mp ht with ht | ht
        · refine (hallx t ht).imp_right fun hle => ?_
          rw [BitVec.lt_def, not_lt] at hxy
          exact BitVec.le_def.mpr (hxy.trans (BitVec.le_def.mp hle))
        · exact hally t ht

/-- Up to a fee is below the next one. -/
theorem IsNextFee.feesUpTo_eq {x : U64} (h : IsNextFee b fee (some x)) (hsub : ∀ t ∈ a, t ∈ b) :
    feesUpTo a fee = feesBelow a x := by
  obtain ⟨hlt, -, hall⟩ := h
  refine List.countP_congr fun t ht => ?_
  have ht := hall t (hsub t ht)
  rw [decide_eq_true_eq, decide_eq_true_eq]
  simp only [BitVec.lt_def, BitVec.le_def] at *
  omega

end Sorted

/-! ## The search -/

/-- The indices are the numbers of transactions below the fee. -/
def FeeCursor.At (a b : List Tx) (c : FeeCursor) : Prop :=
  c.ai = feesBelow a c.fee ∧ c.bi = feesBelow b c.fee

/-- The exceptions at a fee: of the first list below it, of the second not below it. -/
def exceptions (bvec mvec : List Tx) (f : U64) : ℕ :=
  feesBelow bvec f + mvec.countP fun t => decide (f ≤ t.satoshiPerByte)

/-- Zero, and the fees that occur. -/
def feeCandidates (l : List Tx) : List U64 := 0 :: l.map Tx.satoshiPerByte

theorem exceptions_eq (bvec mvec : List Tx) (f : U64) :
    exceptions bvec mvec f = feesBelow bvec f + (mvec.length - feesBelow mvec f) := by
  have hlen := List.length_eq_countP_add_countP (fun t : Tx => decide (t.satoshiPerByte < f))
    (l := mvec)
  have hnot : mvec.countP (fun t => decide (¬ decide (t.satoshiPerByte < f) = true)) =
      mvec.countP fun t => decide (f ≤ t.satoshiPerByte) :=
    List.countP_congr fun t _ => by simp [BitVec.not_lt]
  rw [hnot] at hlen
  rw [exceptions, hlen, feesBelow, feesBelow, Nat.add_sub_cancel_left]

section Search

variable {a b : List Tx} (ha : FeeSorted a) (hb : FeeSorted b)

include ha hb

theorem nextFee_ok {c : FeeCursor} (hc : c.At a b) : ∃ x, IsNextFee (a ++ b) c.fee x ∧
    nextFee a b c = .ok (x.isSome, ⟨feesUpTo a c.fee, feesUpTo b c.fee, x.getD c.fee⟩) := by
  have hsa : skipFee a c.fee c.ai = feesUpTo a c.fee :=
    skipFee_eq ha hc.1.ge (hc.1.le.trans (feesBelow_le_feesUpTo a c.fee))
  have hsb : skipFee b c.fee c.bi = feesUpTo b c.fee :=
    skipFee_eq hb hc.2.ge (hc.2.le.trans (feesBelow_le_feesUpTo b c.fee))
  obtain ⟨x, hx, hnx⟩ := feeAbove_ok ha c.fee
  obtain ⟨y, hy, hny⟩ := feeAbove_ok hb c.fee
  refine ⟨_, hnx.append hny rfl, ?_⟩
  simp only [nextFee, hsa, hsb, hx, hy, ok_bind]
  cases x <;> cases y <;> rfl

/-- What a turn of the search keeps. -/
structure Searched (a b : List Tx) (c : FeeCursor) (best : FeeEstimate) : Prop where
  cursor : c.At a b
  cost : best.numTxsExcepted = exceptions a b best.bestFee
  mem : best.bestFee ∈ feeCandidates (a ++ b)
  least : ∀ v ∈ feeCandidates (a ++ b), v ≤ c.fee →
    exceptions a b best.bestFee ≤ exceptions a b v

omit ha hb in
theorem searched_start : Searched a b ⟨0, 0, 0⟩ ⟨0, b.length⟩ := by
  have hnone : ∀ l : List Tx, feesBelow l 0 = 0 := fun l =>
    List.countP_eq_zero.mpr fun t _ => by simp [BitVec.lt_def]
  refine ⟨⟨(hnone a).symm, (hnone b).symm⟩, ?_, List.mem_cons_self, fun v _ hv => ?_⟩
  · rw [exceptions_eq, hnone, hnone, Nat.zero_add, Nat.sub_zero]
  · have hv : v = 0 := BitVec.eq_of_toNat_eq (Nat.le_zero.mp (BitVec.le_def.mp hv))
    rw [hv]

omit ha hb in
/-- One turn of the search. -/
theorem Searched.next {c : FeeCursor} {best : FeeEstimate} (h : Searched a b c best) {x : U64}
    (hx : IsNextFee (a ++ b) c.fee (some x)) :
    Searched a b ⟨feesUpTo a c.fee, feesUpTo b c.fee, x⟩
      (if feesUpTo a c.fee + (b.length - feesUpTo b c.fee) < best.numTxsExcepted then
        ⟨x, feesUpTo a c.fee + (b.length - feesUpTo b c.fee)⟩ else best) := by
  have hua : feesUpTo a c.fee = feesBelow a x :=
    hx.feesUpTo_eq fun t ht => List.mem_append_left _ ht
  have hub : feesUpTo b c.fee = feesBelow b x :=
    hx.feesUpTo_eq fun t ht => List.mem_append_right _ ht
  obtain ⟨hlt, ⟨t, ht, rfl⟩, hall⟩ := hx
  -- a candidate up to the new fee is the new fee, or one seen before
  have hseen : ∀ v ∈ feeCandidates (a ++ b), v ≤ t.satoshiPerByte →
      v ≤ c.fee ∨ v = t.satoshiPerByte := by
    intro v hv hle
    rcases List.mem_cons.mp hv with rfl | hv
    · exact Or.inl (BitVec.le_def.mpr (Nat.zero_le _))
    · obtain ⟨u, hu, rfl⟩ := List.mem_map.mp hv
      refine (hall u hu).imp_right fun hge => BitVec.eq_of_toNat_eq ?_
      exact le_antisymm (BitVec.le_def.mp hle) (BitVec.le_def.mp hge)
  rw [hua, hub, ← exceptions_eq]
  split_ifs with hbetter
  · rw [h.cost] at hbetter
    refine ⟨⟨rfl, rfl⟩, rfl, List.mem_cons_of_mem _ (List.mem_map.mpr ⟨t, ht, rfl⟩),
      fun v hv hle => ?_⟩
    rcases hseen v hv hle with hle | rfl
    · exact hbetter.le.trans (h.least v hv hle)
    · exact le_rfl
  · rw [h.cost] at hbetter
    refine ⟨⟨rfl, rfl⟩, h.cost, h.mem, fun v hv hle => ?_⟩
    rcases hseen v hv hle with hle | rfl
    · exact h.least v hv hle
    · exact not_lt.mp hbetter

/-- The search ends with the best of the candidates. -/
theorem estimateLoop_ok {c : FeeCursor} {best : FeeEstimate} (h : Searched a b c best) :
    ∃ fee, estimateLoop a b c best = .ok fee ∧ fee ∈ feeCandidates (a ++ b) ∧
      ∀ v ∈ feeCandidates (a ++ b), exceptions a b fee ≤ exceptions a b v := by
  induction hn : 2 ^ 64 - c.fee.toNat using Nat.strong_induction_on generalizing c best with
  | _ n ih =>
    subst hn
    obtain ⟨x, hx, hnext⟩ := nextFee_ok ha hb h.cursor
    cases x with
    | none =>
      have hloop : estimateLoop a b c best = .ok best.bestFee := by
        rw [estimateLoop]
        split <;> simp_all
      refine ⟨_, hloop, h.mem, fun v hv => h.least v hv ?_⟩
      rcases List.mem_cons.mp hv with rfl | hv
      · exact BitVec.le_def.mpr (Nat.zero_le _)
      · obtain ⟨t, ht, rfl⟩ := List.mem_map.mp hv
        exact hx t ht
    | some x =>
      have hlt := BitVec.lt_def.mp hx.1
      obtain ⟨fee, hloop, hfee⟩ := ih _ (by show 2 ^ 64 - x.toNat < _; omega) (h.next hx) rfl
      refine ⟨fee, ?_, hfee⟩
      rw [estimateLoop]
      split <;> simp_all

end Search

/-! ## Blocks and mempools -/

variable (block mempool : Txmap)

/-- The exceptions at a fee: what the block has below it, and what only the mempool has and is not
below it. -/
def feeCost (f : U64) : ℕ :=
  block.entries.countP (fun e => decide (e.2.satoshiPerByte < f)) +
    (mempool.sdiff block).countP fun e => decide (f ≤ e.2.satoshiPerByte)

/-- The transactions that the estimate looks at. -/
def feeTxs : List Tx := block.entries.map Prod.snd ++ (mempool.sdiff block).map Prod.snd

/-- The largest threshold is a fee that occurs, or from some candidate on only the mempool has no
more transactions than the block. -/
def CandidateSuffices : Prop :=
  BitVec.allOnes 64 ∈ feeCandidates (feeTxs block mempool) ∨
    ∃ v ∈ feeCandidates (feeTxs block mempool),
      (mempool.sdiff block).countP (fun e => decide (v ≤ e.2.satoshiPerByte)) ≤
        block.entries.countP fun e => decide (v ≤ e.2.satoshiPerByte)

theorem filter_find_eq_none :
    (mempool.entries.filter fun p => block.find p.1 = none) = mempool.sdiff block := by
  refine List.filter_congr fun e _ => decide_eq_decide.mpr ?_
  exact UnorderedMap.find_eq_none_iff

variable {block mempool}

/-- The candidates are the best choice exactly if one of them suffices. -/
theorem feeCost_optimal_iff {best : U64} (hmem : best ∈ feeCandidates (feeTxs block mempool))
    (hmin : ∀ v ∈ feeCandidates (feeTxs block mempool),
      feeCost block mempool best ≤ feeCost block mempool v) :
    (∀ f, feeCost block mempool best ≤ feeCost block mempool f) ↔
      CandidateSuffices block mempool := by
  let key : BitcoinTxid × Tx → Fin (2 ^ 64) := fun e => e.2.satoshiPerByte.toFin
  have hcost : ∀ f : U64,
      feeCost block mempool f = Threshold.cost key block.entries (mempool.sdiff block) f.toFin :=
    fun f => rfl
  have hkeys : ∀ e ∈ block.entries ++ mempool.sdiff block,
      key e ∈ (feeCandidates (feeTxs block mempool)).map BitVec.toFin := by
    intro e he
    rw [feeTxs, ← List.map_append]
    exact List.mem_map_of_mem (List.mem_cons_of_mem _
      (List.mem_map_of_mem (List.mem_map_of_mem he)))
  have htop : ∀ v : U64, IsTop v.toFin ↔ v = BitVec.allOnes 64 := by
    intro v
    rw [isTop_iff_eq_top, ← BitVec.toFin_inj]
    rfl
  have hall : (∀ f, feeCost block mempool best ≤ feeCost block mempool f) ↔
      ∀ f, Threshold.cost key block.entries (mempool.sdiff block) best.toFin ≤
        Threshold.cost key block.entries (mempool.sdiff block) f :=
    ⟨fun h f => h (BitVec.ofFin f), fun h f => h f.toFin⟩
  have hmin' : ∀ v ∈ (feeCandidates (feeTxs block mempool)).map BitVec.toFin,
      Threshold.cost key block.entries (mempool.sdiff block) best.toFin ≤
        Threshold.cost key block.entries (mempool.sdiff block) v := by
    intro v hv
    obtain ⟨u, hu, rfl⟩ := List.mem_map.mp hv
    exact hmin u hu
  rw [hall, Threshold.optimal_iff hkeys (List.mem_map_of_mem hmem) hmin']
  simp only [List.mem_map, exists_exists_and_eq_and, htop, exists_eq_right]
  exact Iff.rfl

/-- The estimate is the best of the candidates. -/
theorem estimateFees_least (block mempool : Txmap) : ∃ fee, estimateFees block mempool = .ok fee ∧
    fee ∈ feeCandidates (feeTxs block mempool) ∧
      ∀ v ∈ feeCandidates (feeTxs block mempool),
        feeCost block mempool fee ≤ feeCost block mempool v := by
  let bvec := block.entries.map Prod.snd
  let mvec := (mempool.sdiff block).map Prod.snd
  have hb := sortFees_perm bvec
  have hm := sortFees_perm mvec
  have hcost : ∀ f, exceptions (sortFees bvec) (sortFees mvec) f = feeCost block mempool f := by
    intro f
    rw [exceptions, feesBelow, hb.countP_eq, hm.countP_eq, List.countP_map, List.countP_map]
    rfl
  have hcand : ∀ v, v ∈ feeCandidates (sortFees bvec ++ sortFees mvec) ↔
      v ∈ feeCandidates (feeTxs block mempool) := by
    intro v
    exact (((hb.append hm).map Tx.satoshiPerByte).cons 0).mem_iff
  obtain ⟨fee, hloop, hmem, hmin⟩ :=
    estimateLoop_ok (sortFees_sorted bvec) (sortFees_sorted mvec) searched_start
  refine ⟨fee, ?_, (hcand fee).mp hmem, fun v hv => ?_⟩
  · rw [estimateFees, filter_find_eq_none]
    exact hloop
  · rw [← hcost, ← hcost]
    exact hmin v ((hcand v).mpr hv)

/-- **The estimate.** It leaves no more exceptions than any other threshold if and only if some
candidate suffices. -/
theorem estimateFees_optimal_iff (block mempool : Txmap) :
    ∃ fee, estimateFees block mempool = .ok fee ∧
      ((∀ f, feeCost block mempool fee ≤ feeCost block mempool f) ↔
        CandidateSuffices block mempool) := by
  obtain ⟨fee, hfee, hmem, hmin⟩ := estimateFees_least block mempool
  exact ⟨fee, hfee, feeCost_optimal_iff hmem hmin⟩

/-- With an empty block and one transaction of fee zero, the estimate is zero, which leaves that
transaction as an exception; one would leave none. -/
theorem estimateFees_not_optimal : estimateFees UnorderedMap.empty oneTx = .ok 0 ∧
    feeCost UnorderedMap.empty oneTx 0 = 1 ∧ feeCost UnorderedMap.empty oneTx 1 = 0 := by
  refine ⟨?_, rfl, rfl⟩
  obtain ⟨fee, hfee, hmem, -⟩ := estimateFees_least UnorderedMap.empty oneTx
  rw [hfee]
  have hcand : feeCandidates (feeTxs UnorderedMap.empty oneTx) = [0, 0] := rfl
  rw [hcand] at hmem
  simpa using hmem

end BitcoinIblt
