import BitcoinIblt.SliceLayout

/-!
# The number of slices

The slice count is written in front of the transaction, so its own length feeds back into it.
`slice_tx` first counts with one byte for it, checks the result against `0xffff`, and then counts
again with three. The bytes are laid out right at all lengths (`slice_layout`), also when the second
count passes `0xffff`: that happens when the transaction fits in 65535 slices with a prefix of one
byte but not with one of three (`sliceTx_count_iff`).
-/

namespace BitcoinIblt

open LittleEndian StickyParser

/-! ## Layout -/

section Layout

variable (H : Hashes) {btx : BitcoinTx} {n : ℕ}

theorem addSlice_nil (s : SliceState) : addSlice [] s = .ok s := by rw [addSlice, dif_pos rfl]

/-- Pieces written one after the other are written as their concatenation. -/
theorem addSlice_pieces (pieces : List (List U8)) (s : SliceState) :
    pieces.foldlM (fun s piece => addSlice piece s) s = addSlice pieces.flatten s := by
  have hstep : ∀ piece (s : SliceState), addSlice piece s = addSlice (id piece) s :=
    fun _ _ => rfl
  have h := add_foldlM addSlice_chunked hstep [] pieces s
  rw [addSlice_nil, ok_bind, List.nil_append, List.flatMap_id] at h
  exact h

/-- **Layout of slices.** Unless the assertion on the count fires, `slice_tx` returns slices whose
contents are the count, the transaction and less than a slice of zeros, with the id and consecutive
fragment ids. The writer gets there however its input is cut, and stays inside the vector. -/
theorem slice_layout {btx : BitcoinTx} (h : Sliceable btx) (id : Txid48) :
    ∃ v zeros, sliceTx H btx id = .ok v ∧ zeros < ibltSize ∧
      flat v = varintBytes (BitVec.ofNat 64 v.length) ++ btx.linearize ++
        List.replicate zeros 0 ∧
      (∀ i (hi : i < v.length),
        v[i].txidbits = id ∧ v[i].fragid = id.fragBase H + BitVec.ofNat 16 i) ∧
      (v.map TxSlice.fragid).Nodup ∧
      ∀ pieces : List (List U8),
        pieces.flatten = varintBytes (BitVec.ofNat 64 v.length) ++ btx.linearize →
        ∃ s, pieces.foldlM (fun s piece => addSlice piece s) (SliceState.start H id v.length) =
          .ok s ∧ s.vec = v ∧ s.Done := by
  have hn := numSlices_eq (H := H) id h
  obtain ⟨hpos, hle, hlast, hfit⟩ := numSlices_spec hn
  refine ⟨slicesOf H btx id, ibltSize * (slicesOf H btx id).length -
    (varintLen (slicesOf H btx id).length + btx.length), sliceTx_eq id h, ?_, ?_, fun i hi => ?_,
    fragids_nodup id, fun pieces hpieces => ?_⟩
  · unfold ibltSize at *
    omega
  · rw [linearize_eq]
    exact flat_slicesOf id hn
  · have hget := slicesOf_getElem (H := H) id hi
    exact ⟨hget.1, hget.2.trans (add_comm _ _)⟩
  · rw [linearize_eq] at hpieces
    rw [addSlice_pieces, hpieces]
    obtain ⟨s, hs, hdone, hhead, hflat⟩ := addSlice_start H hn id
    refine ⟨s, hs, vec_ext ?_ ?_, hdone⟩
    · rw [hhead, headers_slicesOf id hn]
    · rw [hflat, flat_slicesOf id hn]

end Layout

theorem slice_layout_headBtx : Sliceable (headBtx 2 300) ∧ ∃ v zeros s,
    sliceTx headHashes (headBtx 2 300) 0 = .ok v ∧ v.length = 6 ∧ zeros < ibltSize ∧
      flat v = varintBytes 6 ++ (headBtx 2 300).linearize ++ List.replicate zeros 0 ∧
      (v.map TxSlice.fragid).Nodup ∧
      [varintBytes 6, (headBtx 2 300).linearize.take 100,
          (headBtx 2 300).linearize.drop 100].foldlM (fun s piece => addSlice piece s)
        (SliceState.start headHashes 0 6) = .ok s ∧ s.vec = v := by
  have hs := sliceable_headBtx 2 300
  obtain ⟨v, zeros, hv, hz, hflat, -, hnodup, hwrite⟩ := slice_layout headHashes hs 0
  obtain rfl : slicesOf headHashes (headBtx 2 300) 0 = v :=
    Except.ok.inj ((sliceTx_eq 0 hs).symm.trans hv)
  have hlen : (slicesOf headHashes (headBtx 2 300) 0).length = 6 :=
    slicesOf_length 0 (numSlices_headBtx 2)
  rw [hlen] at hflat hwrite
  obtain ⟨s, hrun, hvec, -⟩ := hwrite [varintBytes 6, (headBtx 2 300).linearize.take 100,
    (headBtx 2 300).linearize.drop 100] (by
      simp only [List.flatten_cons, List.flatten_nil, List.append_nil, List.take_append_drop]
      rfl)
  exact ⟨hs, _, zeros, s, hv, hlen, hz, hflat, hnodup, hrun, hvec⟩

/-! ## The recomputed count -/

/-- The count stays in range when the transaction still fits with three bytes in front. -/
theorem numSlices_le_iff {btx : BitcoinTx} {n : ℕ} (h : numSlices btx = .ok n) :
    n ≤ 0xffff ↔ 3 + btx.length ≤ 0xffff * ibltSize := by
  have hcases := numSlices_cases h
  unfold TxSlice.numSlicesFor ibltSize at hcases
  unfold ibltSize
  omega

/-- The slices are as many as the first one declares, and `recover_block` takes that number. -/
def AcceptedCount (v : List TxSlice) : Prop :=
  ∃ first tail num, v = first :: tail ∧ first.slicesExpected = .ok num ∧
    num.toNat = v.length ∧ 1 ≤ v.length ∧ v.length ≤ 0xffff

/-- The first slice declares the number of slices. -/
theorem slicesOf_expected {H : Hashes} {btx : BitcoinTx} (id : Txid48) (h : Sliceable btx) :
    ∃ first tail num, slicesOf H btx id = first :: tail ∧ first.slicesExpected = .ok num ∧
      num.toNat = (slicesOf H btx id).length := by
  have hn := numSlices_eq (H := H) id h
  obtain ⟨-, hle, -⟩ := numSlices_spec hn
  have hflat := flat_slicesOf (H := H) id hn
  rw [sliceBytes, List.append_assoc] at hflat
  obtain ⟨first, tail, hv⟩ := List.exists_cons_of_ne_nil (slicesOf_ne_nil (H := H) id h)
  refine ⟨first, tail, BitVec.ofNat 64 (slicesOf H btx id).length, hv, ?_, ?_⟩
  · exact slicesExpected_of_flat ((congrArg flat hv).symm.trans hflat)
  · rw [BitVec.toNat_ofNat, Nat.mod_eq_of_lt (by omega)]

/-- What `slice_tx` returns is accepted unless the second count passes `0xffff`. -/
theorem sliceTx_count_iff (H : Hashes) {btx : BitcoinTx} {id : Txid48} {v : List TxSlice}
    (h : sliceTx H btx id = .ok v) :
    AcceptedCount v ↔ 3 + btx.length ≤ 0xffff * ibltSize := by
  have hs := sliceable_of_sliceTx id h
  obtain rfl : slicesOf H btx id = v := Except.ok.inj ((sliceTx_eq id hs).symm.trans h)
  have hn := numSlices_eq (H := H) id hs
  obtain ⟨hpos, -⟩ := numSlices_spec hn
  rw [← numSlices_le_iff hn]
  constructor
  · rintro ⟨-, -, -, -, -, -, -, hle⟩
    exact hle
  · intro hle
    obtain ⟨first, tail, num, hv, hnum, heq⟩ := slicesOf_expected (H := H) id hs
    exact ⟨first, tail, num, hv, hnum, heq, hpos, hle⟩

/-- The blank transaction with one output, whose script is `n` zero bytes. -/
def scriptTx (n : ℕ) (hn : n < 2 ^ 64) : BitcoinTx :=
  { BitcoinTx.blank with
    outputCount := 1
    output := [⟨0, BitVec.ofNat 64 n, List.replicate n 0, by
      rw [List.length_replicate, BitVec.toNat_ofNat, Nat.mod_eq_of_lt hn]⟩]
    length_output := rfl }

theorem length_scriptTx (n : ℕ) (hn : n < 2 ^ 64) :
    (scriptTx n hn).length = 18 + varintLen n + n := by
  have h₀ : (varintBytes 0).length = 1 := rfl
  have h₁ : (varintBytes 1).length = 1 := rfl
  simp only [length_eq, txBytes, scriptTx, BitcoinTx.blank, outputBytes, le32Bytes, le64Bytes,
    List.length_append, List.flatMap_nil, List.flatMap_cons, List.length_nil, toLE_length, h₀, h₁,
    varintBytes_length, List.length_replicate, BitVec.toNat_ofNat, Nat.mod_eq_of_lt hn]
  omega

/-- A transaction that passes the check only with the first count is cut into 65536 slices. -/
theorem sliceTx_bigCount (H : Hashes) {btx : BitcoinTx} (id : Txid48)
    (hlong : 0xffff * ibltSize < 3 + btx.length) (hs : Sliceable btx) :
    ∃ v, sliceTx H btx id = .ok v ∧ v.length = 0x10000 := by
  have hn := numSlices_eq (H := H) id hs
  obtain ⟨-, hle, -⟩ := numSlices_spec hn
  have hbig : ¬(slicesOf H btx id).length ≤ 0xffff := by
    rw [numSlices_le_iff hn]
    exact Nat.not_le.mpr hlong
  exact ⟨_, sliceTx_eq id hs, by omega⟩

/-- A transaction of `65535 * 64 - 2` bytes is cut into 65536 slices. -/
theorem sliceTx_passes_bound : ∃ v,
    sliceTx zeroHashes (scriptTx 4194215 (by norm_num)) 0 = .ok v ∧ v.length = 0x10000 ∧
      ¬AcceptedCount v := by
  have hlen := length_scriptTx 4194215 (by norm_num)
  rw [varintLen_of_gt (by norm_num) (by norm_num)] at hlen
  obtain ⟨v, hv, hcount⟩ := sliceTx_bigCount zeroHashes 0 (by rw [hlen]; decide)
    (by rw [Sliceable, hlen]; decide)
  refine ⟨v, hv, hcount, ?_⟩
  rintro ⟨-, -, -, -, -, -, -, hle⟩
  rw [hcount] at hle
  exact absurd hle (by decide)

theorem sliceTx_count_headBtx : ∃ v, sliceTx headHashes (headBtx 2 300) 0 = .ok v ∧
    v.length = 6 ∧ AcceptedCount v := by
  have hv := sliceTx_eq (H := headHashes) 0 (sliceable_headBtx 2 300)
  refine ⟨_, hv, slicesOf_length 0 (numSlices_headBtx 2), ?_⟩
  refine (sliceTx_count_iff headHashes hv).mpr ?_
  rw [length_headBtx]
  decide

end BitcoinIblt
