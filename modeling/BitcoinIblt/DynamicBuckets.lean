import BitcoinIblt.SliceCount
import BitcoinIblt.Tx

/-!
# The slices an encoder expects

Without a number of buckets to go by, `iblt-encode.cpp` adds up the slices that the block's
transactions take which are not in the mempool, and looks the buckets up in a table. It adds
`num_slices_for(length)`, while `slice_tx` also has to fit the slice count in. The two agree just
when the last slice of each transaction has room for the count (`PrefixFits`).
-/

namespace BitcoinIblt

/-- `INITIAL_SLICES`: "enough slices to decode two 300-byte txs". -/
def initialSlices : ℕ := 10

example : initialSlices = TxSlice.numSlicesFor 300 * 2 := rfl

/-- `slices` in `dynamic_buckets` after its loop. -/
def dynamicSlices (block mempool : Txmap) : ℕ :=
  block.entries.foldl (fun slices pair =>
    if mempool.find pair.1 ≠ none then slices
    else slices + TxSlice.numSlicesFor pair.2.btx.length) initialSlices

/-- The last slice of `len` bytes has room for a slice count in front: one byte, or three where
there are many slices. -/
def PrefixFits (len : ℕ) : Prop :=
  len % ibltSize ≠ 0 ∧ (len < 0xfc * ibltSize ∨ len % ibltSize ≤ ibltSize - 3)

instance (len : ℕ) : Decidable (PrefixFits len) := inferInstanceAs (Decidable (_ ∧ _))

/-! ## One transaction -/

/-- Without the count there are no more slices, and as many just when the count fits. -/
theorem numSlicesFor_length {btx : BitcoinTx} {n : ℕ} (h : numSlices btx = .ok n) :
    TxSlice.numSlicesFor btx.length ≤ n ∧
      (TxSlice.numSlicesFor btx.length = n ↔ PrefixFits btx.length) := by
  have hcases := numSlices_cases h
  unfold PrefixFits
  unfold TxSlice.numSlicesFor ibltSize at *
  omega

/-! ## The total -/

/-- The loop skips what the mempool has. -/
theorem dynamicSlices_eq (block mempool : Txmap) : dynamicSlices block mempool = initialSlices +
    ((block.sdiff mempool).map fun e => TxSlice.numSlicesFor e.2.btx.length).sum := by
  have hloop : ∀ (l : List (BitcoinTxid × Tx)) (slices : ℕ),
      l.foldl (fun slices pair => if mempool.find pair.1 ≠ none then slices
        else slices + TxSlice.numSlicesFor pair.2.btx.length) slices = slices +
      ((l.filter fun e => e.1 ∉ mempool.keys).map fun e =>
        TxSlice.numSlicesFor e.2.btx.length).sum := by
    intro l
    induction l with
    | nil => simp
    | cons e l ih =>
      intro slices
      rw [List.foldl_cons, ih]
      by_cases hk : e.1 ∈ mempool.keys
      · have hfind : mempool.find e.1 ≠ none := fun h => UnorderedMap.find_eq_none_iff.mp h hk
        rw [if_pos hfind, List.filter_cons_of_neg (by simp [hk])]
      · have hfind : ¬mempool.find e.1 ≠ none := not_not.mpr (UnorderedMap.find_eq_none_iff.mpr hk)
        rw [if_neg hfind, List.filter_cons_of_pos (by simp [hk]), List.map_cons, List.sum_cons,
          Nat.add_assoc]
  exact hloop block.entries initialSlices

/-- **The slices to expect.** If `slice_tx` returns for each transaction that the mempool does not
have, `dynamic_buckets` counts the slices it returns if and only if each of these transactions has
room for the slice count. -/
theorem dynamicSlices_iff (H : Hashes) (block mempool : Txmap) {id : BitcoinTxid × Tx → Txid48}
    {v : BitcoinTxid × Tx → List TxSlice}
    (hv : ∀ e ∈ block.sdiff mempool, sliceTx H e.2.btx (id e) = .ok (v e)) :
    dynamicSlices block mempool =
        initialSlices + ((block.sdiff mempool).map fun e => (v e).length).sum ↔
      ∀ e ∈ block.sdiff mempool, PrefixFits e.2.btx.length := by
  have hcount : ∀ e ∈ block.sdiff mempool, TxSlice.numSlicesFor e.2.btx.length ≤ (v e).length ∧
      (TxSlice.numSlicesFor e.2.btx.length = (v e).length ↔ PrefixFits e.2.btx.length) := by
    intro e he
    have hs := sliceable_of_sliceTx _ (hv e he)
    have hslices : slicesOf H e.2.btx (id e) = v e :=
      Except.ok.inj ((sliceTx_eq _ hs).symm.trans (hv e he))
    rw [← hslices]
    exact numSlicesFor_length (numSlices_eq (id e) hs)
  rw [dynamicSlices_eq, Nat.add_left_cancel_iff]
  constructor
  · intro hsum e he
    rw [← (hcount e he).2]
    -- one transaction counted short makes the total short
    by_contra hne
    have hlt := List.sum_lt_sum _ _ (fun e he => (hcount e he).1)
      ⟨e, he, lt_of_le_of_ne (hcount e he).1 hne⟩
    omega
  · intro hfits
    rw [List.map_congr_left fun e he => (hcount e he).2.mpr (hfits e he)]

theorem dynamicSlices_oneTx :
    (∀ e ∈ oneTx.sdiff UnorderedMap.empty, sliceTx zeroHashes e.2.btx 0 =
      .ok (slicesOf zeroHashes e.2.btx 0)) ∧
    dynamicSlices oneTx UnorderedMap.empty = initialSlices +
      ((oneTx.sdiff UnorderedMap.empty).map fun e =>
        (slicesOf zeroHashes e.2.btx 0).length).sum := by
  have hentry : ∀ e ∈ oneTx.sdiff UnorderedMap.empty, e.2.btx = BitcoinTx.blank := by
    intro e he
    rw [mem_oneTx.mp (List.mem_of_mem_filter he)]
  have hv : ∀ e ∈ oneTx.sdiff UnorderedMap.empty, sliceTx zeroHashes e.2.btx 0 =
      .ok (slicesOf zeroHashes e.2.btx 0) := by
    intro e he
    rw [hentry e he]
    exact sliceTx_eq 0 sliceable_blank
  refine ⟨hv, (dynamicSlices_iff zeroHashes oneTx UnorderedMap.empty hv).mpr fun e he => ?_⟩
  rw [hentry e he, length_eq]
  decide

/-- A transaction of 64 bytes. -/
def fullSliceTx : BitcoinTx := scriptTx 45 (by norm_num)

theorem length_fullSliceTx : fullSliceTx.length = 64 := by
  rw [fullSliceTx, length_scriptTx]
  rfl

/-- A block of that transaction. -/
def fullSliceBlock : Txmap :=
  ⟨[(zeroBytes 32, ⟨0, zeroBytes 32, fullSliceTx⟩)], List.nodup_singleton _⟩

/-- The transaction fills a slice, so that the count needs a second one. -/
theorem dynamicSlices_fullSlice : ∃ v, sliceTx zeroHashes fullSliceTx 0 = .ok v ∧ v.length = 2 ∧
    dynamicSlices fullSliceBlock UnorderedMap.empty = initialSlices + 1 ∧
    ¬ dynamicSlices fullSliceBlock UnorderedMap.empty =
      initialSlices + ((fullSliceBlock.sdiff UnorderedMap.empty).map fun _ => v.length).sum := by
  have hcount : numSlices fullSliceTx = .ok 2 := by
    rw [numSlices, length_fullSliceTx]
    rfl
  have htotal : dynamicSlices fullSliceBlock UnorderedMap.empty = initialSlices + 1 := by
    rw [dynamicSlices_eq]
    show initialSlices + (TxSlice.numSlicesFor fullSliceTx.length + 0) = _
    rw [length_fullSliceTx]
    rfl
  refine ⟨_, sliceTx_eq 0 (sliceable_iff.mpr ⟨2, hcount⟩), slicesOf_length 0 hcount, htotal, ?_⟩
  rw [htotal, slicesOf_length 0 hcount]
  decide

end BitcoinIblt
