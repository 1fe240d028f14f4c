import BitcoinIblt.TxSlice

/-!
# The layout of slices

`sliceTx` returns exactly when its first assertion holds (`numSlices btx = .ok n`). Then the slices
carry the id and consecutive fragment ids, and their contents side by side are the slice count as a
varint, the transaction and zeros (`sliceTx_spec`). `rebuildTx` undoes it (`rebuildTx_sliceTx`).

The writer is followed through its flat position `64 * index + off` in the joined contents: one
call of `addSlice` overwrites the bytes from there on, whatever slices they fall into.
-/

namespace BitcoinIblt

open LittleEndian StickyParser

theorem ibltSize_pos : 0 < ibltSize := by decide

/-! ## The joined contents -/

/-- The contents of the slices side by side. -/
def flat (vec : List TxSlice) : List U8 := vec.flatMap fun s => s.contents.1

@[simp] theorem flat_length (vec : List TxSlice) : (flat vec).length = ibltSize * vec.length := by
  induction vec with
  | nil => rfl
  | cons s vec ih =>
    rw [flat, List.flatMap_cons, List.length_append, s.contents.2]
    show ibltSize + (flat vec).length = _
    rw [ih, List.length_cons, Nat.mul_succ, Nat.add_comm]

theorem flat_append (a b : List TxSlice) : flat (a ++ b) = flat a ++ flat b :=
  List.flatMap_append

/-- Writing inside one slice, seen in the joined contents. -/
theorem flat_set {vec : List TxSlice} {i off : ℕ} {slice : TxSlice} {data : List U8}
    (hi : vec[i]? = some slice) (h : off + data.length ≤ ibltSize) :
    flat (vec.set i { slice with contents := copyInto slice.contents off data h }) =
      overwrite (flat vec) (ibltSize * i + off) data := by
  obtain ⟨hlt, hslice⟩ := List.getElem?_eq_some_iff.mp hi
  have hsplit : vec = vec.take i ++ slice :: vec.drop (i + 1) := by
    rw [← hslice, List.cons_getElem_drop_succ, List.take_append_drop]
  have hlen : (flat (vec.take i)).length = ibltSize * i := by
    rw [flat_length, List.length_take, Nat.min_eq_left hlt.le]
  have hflat : flat vec = flat (vec.take i) ++ slice.contents.1 ++ flat (vec.drop (i + 1)) := by
    conv_lhs => rw [hsplit, flat_append]
    rw [List.append_assoc]
    rfl
  rw [hflat, ← hlen, overwrite_middle _ _ (by rw [slice.contents.2]; exact h),
    List.set_eq_take_append_cons_drop, if_pos hlt, flat_append, List.append_assoc]
  rfl

/-! ## The writer -/

/-- The place of the next byte in the joined contents. -/
def SliceState.pos (s : SliceState) : ℕ := ibltSize * s.index + s.off

/-- The id and the fragment id of each slice. -/
def headers (vec : List TxSlice) : List (BitVec 48 × U16) := vec.map fun s => (s.txidbits, s.fragid)

theorem headers_set {vec : List TxSlice} {i : ℕ} {slice : TxSlice} (hi : vec[i]? = some slice)
    (c : Bytes ibltSize) : headers (vec.set i { slice with contents := c }) = headers vec := by
  obtain ⟨hlt, hslice⟩ := List.getElem?_eq_some_iff.mp hi
  apply List.ext_getElem
  · simp [headers]
  · intro j h₁ h₂
    simp only [headers, List.getElem_map, List.getElem_set]
    split_ifs with h
    · subst h
      rw [hslice]
    · rfl

theorem write_pos (s : SliceState) (slice : TxSlice) (data : List U8)
    (h : s.off + data.length ≤ ibltSize) : (s.write slice data h).pos = s.pos + data.length := by
  unfold SliceState.write SliceState.pos
  split_ifs with hfull
  · simp only [Nat.mul_add, Nat.mul_one]; omega
  · simp only; omega

theorem write_vec (s : SliceState) (slice : TxSlice) (data : List U8)
    (h : s.off + data.length ≤ ibltSize) : (s.write slice data h).vec =
      s.vec.set s.index { slice with contents := copyInto slice.contents s.off data h } := by
  unfold SliceState.write
  split_ifs <;> rfl

/-- A turn copies what fits in the slice, and leaves less than there was. -/
theorem turn_lengths (s : SliceState) {data : List U8} (hdata : data ≠ []) :
    s.off + (data.take (ibltSize - s.off)).length ≤ ibltSize ∧
      (data.take (ibltSize - s.off)).length + (data.drop (ibltSize - s.off)).length = data.length ∧
      (data.drop (ibltSize - s.off)).length < data.length := by
  have hoff := s.off_lt
  have hpos := List.length_pos_iff.mpr hdata
  rw [List.length_take, List.length_drop]
  omega

/-- **The writer.** As long as the data fits, `addSlice` overwrites the joined contents from its
position on, moves the position by the length of the data and leaves the headers alone. -/
theorem addSlice_spec (data : List U8) (s : SliceState)
    (hfit : s.pos + data.length ≤ ibltSize * s.vec.length) :
    ∃ s', addSlice data s = .ok s' ∧ s'.pos = s.pos + data.length ∧
      headers s'.vec = headers s.vec ∧ flat s'.vec = overwrite (flat s.vec) s.pos data := by
  induction hn : data.length using Nat.strong_induction_on generalizing data s with
  | _ n ih =>
    subst hn
    rw [addSlice]
    by_cases hdata : data = []
    · exact ⟨s, by rw [dif_pos hdata], by simp [hdata], rfl, by simp [hdata]⟩
    rw [dif_neg hdata]
    have hpos := List.length_pos_iff.mpr hdata
    have hidx : s.index < s.vec.length := by
      unfold SliceState.pos at hfit
      by_contra hge
      have := Nat.mul_le_mul_left ibltSize (Nat.not_lt.mp hge)
      omega
    have hget : s.vec[s.index]? = some s.vec[s.index] := List.getElem?_eq_getElem hidx
    rw [hget]
    -- the state after this turn
    obtain ⟨hchunk, hlen, hdrop⟩ := turn_lengths s hdata
    generalize hs₁ : s.write s.vec[s.index] (data.take (ibltSize - s.off)) hchunk = s₁
    have hpos₁ : s₁.pos = s.pos + (data.take (ibltSize - s.off)).length := by
      rw [← hs₁, write_pos]
    have hvec₁ := write_vec s s.vec[s.index] _ hchunk
    rw [hs₁] at hvec₁
    -- the rest of the data
    obtain ⟨s', hs', hpos', hhead', hflat'⟩ := ih _ hdrop (data.drop (ibltSize - s.off)) s₁
      (by rw [hpos₁, hvec₁, List.length_set]; omega) rfl
    refine ⟨s', by subst hs₁; exact hs', by omega, ?_, ?_⟩
    · rw [hhead', hvec₁, headers_set hget]
    · have hflat₁ : flat s₁.vec = overwrite (flat s.vec) s.pos (data.take (ibltSize - s.off)) := by
        rw [hvec₁, flat_set hget]
        rfl
      rw [hflat', hflat₁, hpos₁, overwrite_overwrite _ (by rw [flat_length]; omega),
        List.take_append_drop]

/-- Data that does not fit runs off the end of the vector. -/
theorem addSlice_overflow {data : List U8} {s : SliceState} (hdata : data ≠ [])
    (h : ibltSize * s.vec.length < s.pos + data.length) :
    addSlice data s = .error .outOfRange := by
  induction hn : data.length using Nat.strong_induction_on generalizing data s with
  | _ n ih =>
    subst hn
    rw [addSlice, dif_neg hdata]
    cases hget : s.vec[s.index]? with
    | none => rfl
    | some slice =>
      obtain ⟨hchunk, hlen, hdrop⟩ := turn_lengths s hdata
      have hvec := congrArg List.length (write_vec s slice _ hchunk)
      rw [List.length_set] at hvec
      have hpos' := write_pos s slice _ hchunk
      refine ih _ hdrop (fun hnil => ?_) (by rw [hvec]; omega) rfl
      -- the data fits into a slice of the vector, so it did not overflow
      obtain ⟨hlt, -⟩ := List.getElem?_eq_some_iff.mp hget
      have := Nat.mul_le_mul_left ibltSize (Nat.succ_le_of_lt hlt)
      have hnil' := congrArg List.length hnil
      simp only [List.length_nil] at hnil'
      simp only [SliceState.pos, Nat.mul_succ] at *
      omega

/-- Slices are determined by their headers and the joined contents. -/
theorem vec_ext {a b : List TxSlice} (hh : headers a = headers b) (hf : flat a = flat b) :
    a = b := by
  induction a generalizing b with
  | nil =>
    cases b with
    | nil => rfl
    | cons t b => simp [headers] at hh
  | cons s a ih =>
    cases b with
    | nil => simp [headers] at hh
    | cons t b =>
      simp only [headers, List.map_cons, List.cons.injEq, Prod.mk.injEq] at hh
      obtain ⟨⟨hid, hfrag⟩, hrest⟩ := hh
      have hf' : s.contents.1 ++ flat a = t.contents.1 ++ flat b := hf
      obtain ⟨hc, hf''⟩ := List.append_inj hf' (by rw [s.contents.2, t.contents.2])
      rw [ih hrest hf'', TxSlice.ext hid hfrag (Subtype.ext hc)]

/-- The writer's state is determined by its position, the headers and the joined contents. -/
theorem SliceState.ext_flat {s t : SliceState} (hp : s.pos = t.pos)
    (hh : headers s.vec = headers t.vec) (hf : flat s.vec = flat t.vec) : s = t := by
  have hvec := vec_ext hh hf
  obtain ⟨i, o, v, ho⟩ := s
  obtain ⟨j, q, w, hq⟩ := t
  have hp' : ibltSize * i + o = ibltSize * j + q := hp
  simp only at hvec
  have hdiv := congrArg (· / ibltSize) hp'
  have hmod := congrArg (· % ibltSize) hp'
  simp only [Nat.mul_add_div ibltSize_pos, Nat.mul_add_mod,
    Nat.div_eq_of_lt ho, Nat.div_eq_of_lt hq, Nat.mod_eq_of_lt ho, Nat.mod_eq_of_lt hq,
    Nat.add_zero] at hdiv hmod
  subst hvec hdiv hmod
  rfl

theorem headers_length {a b : List TxSlice} (h : headers a = headers b) : a.length = b.length := by
  simpa [headers] using congrArg List.length h

/-- Two calls of the writer are one call with the joined data. -/
theorem addSlice_chunked : Chunked addSlice := by
  intro a b s
  by_cases ha : a = []
  · subst ha
    rw [addSlice, dif_pos rfl]
    rfl
  by_cases hb : b = []
  · subst hb
    have hnil : (fun s => addSlice [] s) = fun s => .ok s := by
      funext s; rw [addSlice, dif_pos rfl]
    rw [hnil, List.append_nil]
    exact bind_pure (addSlice a s)
  have hab : a ++ b ≠ [] := by simp [ha]
  have hlen : (a ++ b).length = a.length + b.length := List.length_append
  by_cases hfa : s.pos + a.length ≤ ibltSize * s.vec.length
  · obtain ⟨s₁, h₁, hpos₁, hhead₁, hflat₁⟩ := addSlice_spec a s hfa
    have hvec₁ := headers_length hhead₁
    rw [h₁]
    show addSlice b s₁ = _
    by_cases hfb : s₁.pos + b.length ≤ ibltSize * s₁.vec.length
    · obtain ⟨s₂, h₂, hpos₂, hhead₂, hflat₂⟩ := addSlice_spec b s₁ hfb
      obtain ⟨s₃, h₃, hpos₃, hhead₃, hflat₃⟩ := addSlice_spec (a ++ b) s
        (by rw [hlen, ← hvec₁]; omega)
      rw [h₂, h₃]
      congr 1
      refine SliceState.ext_flat (by omega) (by rw [hhead₂, hhead₁, hhead₃]) ?_
      rw [hflat₂, hflat₁, hpos₁, overwrite_overwrite _ (by rw [flat_length]; exact hfa), hflat₃]
    · rw [addSlice_overflow hb (by omega), addSlice_overflow hab (by rw [hlen, ← hvec₁]; omega)]
  · rw [addSlice_overflow ha (by omega), addSlice_overflow hab (by rw [hlen]; omega)]
    rfl

/-! ## The number of slices -/

theorem varintLen_of_lt {v : ℕ} (h : v < 0xfd) : varintLen v = 1 := by
  unfold varintLen; rw [if_pos h]

theorem varintLen_of_le {v : ℕ} (h₁ : 0xfd ≤ v) (h₂ : v ≤ 0xffff) : varintLen v = 3 := by
  unfold varintLen; rw [if_neg (by omega), if_pos h₂]

theorem varintLen_of_gt {v : ℕ} (h₁ : 0xffff < v) (h₂ : v ≤ 0xffffffff) : varintLen v = 5 := by
  unfold varintLen; rw [if_neg (by omega), if_neg (by omega), if_pos h₂]

/-- One byte for the count if that makes few slices, else three. -/
theorem numSlices_cases {btx : BitcoinTx} {n : ℕ} (h : numSlices btx = .ok n) :
    (n < 0xfd ∧ n = TxSlice.numSlicesFor (1 + btx.length)) ∨
      0xfd ≤ TxSlice.numSlicesFor (1 + btx.length) ∧
        TxSlice.numSlicesFor (1 + btx.length) ≤ 0xffff ∧
        n = TxSlice.numSlicesFor (3 + btx.length) := by
  unfold numSlices at h
  by_cases h₁ : TxSlice.numSlicesFor (1 + btx.length) < 0xfd
  · simp only [varintLen_of_lt h₁, lt_irrefl, if_false, Except.ok.injEq] at h
    exact Or.inl ⟨h ▸ h₁, h.symm⟩
  · by_cases h₂ : TxSlice.numSlicesFor (1 + btx.length) ≤ 0xffff
    · simp only [varintLen_of_le (Nat.not_lt.mp h₁) h₂, if_pos h₂, if_pos (show 1 < 3 by norm_num),
        Except.ok.injEq] at h
      exact Or.inr ⟨Nat.not_lt.mp h₁, h₂, h.symm⟩
    · have hbig : 1 < varintLen (TxSlice.numSlicesFor (1 + btx.length)) := by
        unfold varintLen
        split_ifs <;> omega
      simp only [if_pos hbig, if_neg h₂, reduceCtorEq] at h

/-- The count leaves room for its own varint and the transaction, and the last slice is used. The
recomputed count can exceed the asserted bound by one. -/
theorem numSlices_spec {btx : BitcoinTx} {n : ℕ} (h : numSlices btx = .ok n) :
    0 < n ∧ n ≤ 0x10000 ∧ ibltSize * (n - 1) < varintLen n + btx.length ∧
      varintLen n + btx.length ≤ ibltSize * n := by
  have hlen := ten_le_length btx
  have hcases := numSlices_cases h
  unfold TxSlice.numSlicesFor ibltSize at hcases
  unfold ibltSize
  rcases hcases with ⟨h₁, hn⟩ | ⟨h₁, h₂, hn⟩
  · rw [varintLen_of_lt h₁]
    omega
  · by_cases h₃ : n ≤ 0xffff
    · rw [varintLen_of_le (by omega) h₃]
      omega
    · rw [varintLen_of_gt (by omega) (by omega)]
      omega

/-! ## Cutting -/

section Cut

variable (H : Hashes)

theorem flat_blankSlices (id : Txid48) (n : ℕ) :
    flat (blankSlices H id n) = List.replicate (ibltSize * n) 0 := by
  refine List.eq_replicate_iff.mpr ⟨by simp [blankSlices], fun b hb => ?_⟩
  obtain ⟨s, hs, hbs⟩ := List.mem_flatMap.mp hb
  obtain ⟨i, -, rfl⟩ := List.mem_map.mp hs
  exact List.eq_of_mem_replicate hbs

/-- The ids and fragment ids of the slices of a transaction. -/
def sliceHeaders (id : Txid48) (n : ℕ) : List (BitVec 48 × U16) :=
  (List.range n).map fun i => (id, BitVec.ofNat 16 i + id.fragBase H)

theorem headers_blankSlices (id : Txid48) (n : ℕ) :
    headers (blankSlices H id n) = sliceHeaders H id n := by
  simp [headers, blankSlices, sliceHeaders]

/-- The joined contents of `n` slices of a transaction. -/
def sliceBytes (btx : BitcoinTx) (n : ℕ) : List U8 :=
  varintBytes (BitVec.ofNat 64 n) ++ txBytes btx

theorem sliceBytes_length {btx : BitcoinTx} {n : ℕ} (h : n ≤ 0x10000) :
    (sliceBytes btx n).length = varintLen n + btx.length := by
  rw [sliceBytes, List.length_append, varintBytes_length, length_eq, BitVec.toNat_ofNat,
    Nat.mod_eq_of_lt (by omega)]

/-- The state `{ 0, 0, vec }` that `slice_tx` starts to write from. -/
def SliceState.start (id : Txid48) (n : ℕ) : SliceState := ⟨0, 0, blankSlices H id n, ibltSize_pos⟩

/-- The final assertion: the writer is in the last slice, or just behind it. -/
def SliceState.Done (s : SliceState) : Prop :=
  s.index = s.vec.length - 1 ∨ (s.index = s.vec.length ∧ s.off = 0)

instance : DecidablePred SliceState.Done := fun _ => by unfold SliceState.Done; infer_instance

/-- Written from the start, the bytes fill the slices and zeros are left behind them. -/
theorem addSlice_start {btx : BitcoinTx} {n : ℕ} (hn : numSlices btx = .ok n) (id : Txid48) :
    ∃ s, addSlice (sliceBytes btx n) (SliceState.start H id n) = .ok s ∧ s.Done ∧
      headers s.vec = sliceHeaders H id n ∧
      flat s.vec = sliceBytes btx n ++
        List.replicate (ibltSize * n - (varintLen n + btx.length)) 0 := by
  obtain ⟨hpos, hle, hlast, hfit⟩ := numSlices_spec hn
  have hlen : (sliceBytes btx n).length = varintLen n + btx.length := sliceBytes_length hle
  have hblank : (SliceState.start H id n).vec.length = n := by simp [SliceState.start, blankSlices]
  have hpos₀ : (SliceState.start H id n).pos = 0 := rfl
  have hflat₀ : flat (SliceState.start H id n).vec = List.replicate (ibltSize * n) 0 :=
    flat_blankSlices H id n
  obtain ⟨s, hs, hspos, hshead, hsflat⟩ := addSlice_spec (sliceBytes btx n)
    (SliceState.start H id n) (by rw [hblank, hpos₀]; omega)
  refine ⟨s, hs, ?_, hshead.trans (headers_blankSlices H id n), ?_⟩
  · have hvec : s.vec.length = n := (headers_length hshead).trans hblank
    have hoff := s.off_lt
    rw [hpos₀, Nat.zero_add, hlen, SliceState.pos] at hspos
    unfold SliceState.Done
    rw [hvec]
    unfold ibltSize at *
    omega
  · rw [hsflat, hpos₀, overwrite_zero, hflat₀, List.drop_replicate, hlen]

/-- **Layout.** When the assertion on the count holds, `sliceTx` returns: `n` slices with the id,
consecutive fragment ids, and the count, the transaction and zeros as contents. -/
theorem sliceTx_spec {btx : BitcoinTx} {n : ℕ} (hn : numSlices btx = .ok n) (id : Txid48) :
    ∃ v, sliceTx H btx id = .ok v ∧ headers v = sliceHeaders H id n ∧
      flat v = sliceBytes btx n ++
        List.replicate (ibltSize * n - (varintLen n + btx.length)) 0 := by
  obtain ⟨s, hs, hdone, hhead, hflat⟩ := addSlice_start H hn id
  refine ⟨s.vec, ?_, hhead, hflat⟩
  have hadd : (addVarint (BitVec.ofNat 64 n) addSlice (SliceState.start H id n) >>=
      fun s => btx.addTx addSlice s) = .ok s := by
    simp only [addVarint, addTx_eq addSlice_chunked, addSlice_chunked _ _ _]
    exact hs
  rw [sliceTx, hn]
  show (addVarint _ addSlice (SliceState.start H id n) >>= fun s => btx.addTx addSlice s >>= _) = _
  rw [← bind_assoc, hadd]
  show (if s.Done then _ else _) = _
  rw [if_pos hdone]
  rfl

theorem sliceTx_error {btx : BitcoinTx} {f : Fault} (h : numSlices btx = .error f) (id : Txid48) :
    sliceTx H btx id = .error f := by
  rw [sliceTx, h]
  rfl

end Cut

/-- The transaction passes the assertion of `slice_tx`. -/
def Sliceable (btx : BitcoinTx) : Prop := TxSlice.numSlicesFor (1 + btx.length) ≤ 0xffff

instance : DecidablePred Sliceable := fun _ => by unfold Sliceable; infer_instance

theorem sliceable_iff {btx : BitcoinTx} : Sliceable btx ↔ ∃ n, numSlices btx = .ok n := by
  unfold Sliceable numSlices
  generalize TxSlice.numSlicesFor (1 + btx.length) = n
  by_cases h : n ≤ 0xffff
  · simp only [h, true_iff]
    split_ifs <;> exact ⟨_, rfl⟩
  · have hbig : 1 < varintLen n := by
      unfold varintLen
      split_ifs <;> omega
    simp [if_pos hbig, h]

/-! ## The slices of a transaction -/

section Slices

variable (H : Hashes)

/-- What `sliceTx` returns when it does. -/
def slicesOf (btx : BitcoinTx) (id : Txid48) : List TxSlice :=
  (sliceTx H btx id).toOption.getD []

variable {H} {btx : BitcoinTx} (id : Txid48)

theorem sliceTx_eq (h : Sliceable btx) : sliceTx H btx id = .ok (slicesOf H btx id) := by
  obtain ⟨n, hn⟩ := sliceable_iff.mp h
  obtain ⟨v, hv, -⟩ := sliceTx_spec H hn id
  rw [slicesOf, hv]
  rfl

theorem sliceable_of_sliceTx {v : List TxSlice} (h : sliceTx H btx id = .ok v) :
    Sliceable btx := by
  refine sliceable_iff.mpr ?_
  cases hn : numSlices btx with
  | error f => rw [sliceTx_error H hn] at h; cases h
  | ok n => exact ⟨n, rfl⟩

theorem headers_slicesOf {n : ℕ} (hn : numSlices btx = .ok n) :
    headers (slicesOf H btx id) = sliceHeaders H id n := by
  obtain ⟨v, hv, hhead, -⟩ := sliceTx_spec H hn id
  rw [slicesOf, hv]
  exact hhead

theorem flat_slicesOf {n : ℕ} (hn : numSlices btx = .ok n) :
    flat (slicesOf H btx id) = sliceBytes btx n ++
      List.replicate (ibltSize * n - (varintLen n + btx.length)) 0 := by
  obtain ⟨v, hv, -, hflat⟩ := sliceTx_spec H hn id
  rw [slicesOf, hv]
  exact hflat

theorem slicesOf_length {n : ℕ} (hn : numSlices btx = .ok n) : (slicesOf H btx id).length = n := by
  have := congrArg List.length (headers_slicesOf (H := H) id hn)
  simpa [headers, sliceHeaders] using this

/-- The number of slices that `Sliceable` transactions are cut into. -/
theorem numSlices_eq (h : Sliceable btx) : numSlices btx = .ok (slicesOf H btx id).length := by
  obtain ⟨n, hn⟩ := sliceable_iff.mp h
  rw [slicesOf_length id hn, hn]

theorem slicesOf_ne_nil (h : Sliceable btx) : slicesOf H btx id ≠ [] := by
  obtain ⟨hpos, -⟩ := numSlices_spec (numSlices_eq (H := H) id h)
  exact List.length_pos_iff.mp hpos

/-- Slice `i` carries the id and the fragment id `frag_base + i`. -/
theorem slicesOf_getElem {i : ℕ} (hi : i < (slicesOf H btx id).length) :
    (slicesOf H btx id)[i].txidbits = id ∧
      (slicesOf H btx id)[i].fragid = BitVec.ofNat 16 i + id.fragBase H := by
  have hs : Sliceable btx := by
    by_contra hns
    have hnil : slicesOf H btx id = [] := by
      cases hv : sliceTx H btx id with
      | error f => rw [slicesOf, hv]; rfl
      | ok v => exact absurd (sliceable_of_sliceTx id hv) hns
    rw [hnil] at hi
    simp at hi
  have hhead := headers_slicesOf (H := H) id (numSlices_eq (H := H) id hs)
  have hget := List.getElem_of_eq hhead (i := i) (by rw [headers, List.length_map]; exact hi)
  simp only [headers, sliceHeaders, List.getElem_map, List.getElem_range, Prod.mk.injEq] at hget
  exact hget

theorem txidbits_of_mem {s : TxSlice} (hs : s ∈ slicesOf H btx id) : s.txidbits = id := by
  obtain ⟨i, hi, rfl⟩ := List.getElem_of_mem hs
  exact (slicesOf_getElem id hi).1

/-- The fragment ids of a transaction are distinct: there are at most `2 ^ 16`. -/
theorem fragids_nodup : ((slicesOf H btx id).map TxSlice.fragid).Nodup := by
  refine List.nodup_iff_injective_getElem.mpr fun i j hij => Fin.ext ?_
  have hi := i.isLt
  have hj := j.isLt
  simp only [List.length_map] at hi hj
  simp only [List.getElem_map, slicesOf_getElem id hi,
    slicesOf_getElem id hj] at hij
  have hne : slicesOf H btx id ≠ [] := List.ne_nil_of_length_pos (by omega)
  have hs : Sliceable btx := by
    cases hv : sliceTx H btx id with
    | error f => rw [slicesOf, hv] at hne; exact absurd rfl hne
    | ok v => exact sliceable_of_sliceTx id hv
  obtain ⟨-, hle, -⟩ := numSlices_spec (numSlices_eq (H := H) id hs)
  have h := congrArg BitVec.toNat (add_right_cancel hij)
  simp only [BitVec.toNat_ofNat] at h
  rwa [Nat.mod_eq_of_lt (by omega), Nat.mod_eq_of_lt (by omega)] at h

/-! ## Joining them again -/

/-- The varint at the start of the joined contents is the one at the start of the first slice. -/
theorem slicesExpected_of_flat {first : TxSlice} {tail : List TxSlice} {n : U64} {rest : List U8}
    (h : flat (first :: tail) = varintBytes n ++ rest) : first.slicesExpected = .ok n := by
  have h' : first.contents.1 ++ flat tail = varintBytes n ++ rest := h
  have hle : (varintBytes n).length ≤ first.contents.1.length := by
    rw [varintBytes_length, first.contents.2]
    exact (varintLen_le _).trans (by decide)
  obtain ⟨q, hq⟩ : varintBytes n <+: first.contents.1 :=
    List.prefix_of_prefix_length_le (List.prefix_append _ _)
      (h' ▸ List.prefix_append _ _) hle
  rw [TxSlice.slicesExpected, ← hq, (reads_varint n).full]
  rfl

/-- Joining the slices of a transaction gives the transaction back. -/
theorem rebuildTx_slicesOf {A : Allocator} (hA : A.Succeeds) (h : Sliceable btx) :
    rebuildTx A (slicesOf H btx id) = .ok (some btx) := by
  have hn := numSlices_eq (H := H) id h
  have hflat := flat_slicesOf (H := H) id hn
  generalize (slicesOf H btx id).length = n at hn hflat
  rw [sliceBytes, List.append_assoc] at hflat
  cases hv : slicesOf H btx id with
  | nil => exact absurd hv (slicesOf_ne_nil id h)
  | cons first tail =>
    rw [hv] at hflat
    have hexp := slicesExpected_of_flat hflat
    have hpull := (reads_varint (BitVec.ofNat 64 n)).full
      (txBytes btx ++ List.replicate (ibltSize * n - (varintLen n + btx.length)) 0)
    rw [← hflat] at hpull
    have hparse := parse_append hA btx
      (List.replicate (ibltSize * n - (varintLen n + btx.length)) 0)
    have htry : tryRebuild A (flat (first :: tail)) first = .ok (some btx) := by
      rw [tryRebuild, hpull]
      show (first.slicesExpected >>= fun e => _) = _
      rw [hexp]
      show (if BitVec.ofNat 64 n ≠ BitVec.ofNat 64 n then _ else _) = _
      rw [if_neg (not_not.mpr rfl), hparse]
      rfl
    exact congrArg catchRuntimeError htry

end Slices

/-! ## The blank transaction -/

theorem numSlices_blank : numSlices BitcoinTx.blank = .ok 1 := by
  rw [numSlices, length_eq]
  rfl

theorem sliceable_blank : Sliceable BitcoinTx.blank := sliceable_iff.mpr ⟨1, numSlices_blank⟩

theorem length_slicesOf_blank (H : Hashes) (id : Txid48) :
    (slicesOf H BitcoinTx.blank id).length = 1 :=
  slicesOf_length id numSlices_blank

theorem sliceable_headBtx (v : U8) (n : U16) : Sliceable (headBtx v n) := by
  have hn := n.isLt
  have hlen : varintLen n.toNat ≤ 3 := by
    unfold varintLen
    split_ifs <;> omega
  unfold Sliceable TxSlice.numSlicesFor ibltSize
  rw [length_headBtx]
  omega

theorem slicesOf_headBtx_le (H : Hashes) (v : U8) (n : U16) (id : Txid48) :
    (slicesOf H (headBtx v n) id).length ≤ 0xffff := by
  have hn := n.isLt
  have hvarint : ∀ k, varintLen k ≤ 9 := by
    intro k
    unfold varintLen
    split_ifs <;> omega
  obtain ⟨-, -, hlt, -⟩ := numSlices_spec (numSlices_eq (H := H) id (sliceable_headBtx v n))
  rw [length_headBtx] at hlt
  have h₁ := hvarint n.toNat
  have h₂ := hvarint (slicesOf H (headBtx v n) id).length
  unfold ibltSize at hlt
  omega

/-- A script of 300 bytes takes six slices. -/
theorem numSlices_headBtx (v : U8) : numSlices (headBtx v 300) = .ok 6 := by
  rw [numSlices, length_headBtx]
  rfl

/-- Without a script there is one slice. -/
theorem slicesOf_headBtx_zero (H : Hashes) (v : U8) (id : Txid48) :
    ∃ s : TxSlice, slicesOf H (headBtx v 0) id = [s] ∧ s.txidbits = id := by
  have hnum : numSlices (headBtx v 0) = .ok 1 := by
    rw [numSlices, length_headBtx]
    rfl
  obtain ⟨s, hs⟩ := List.length_eq_one_iff.mp (slicesOf_length (H := H) id hnum)
  exact ⟨s, hs, txidbits_of_mem id (by rw [hs]; exact List.mem_singleton_self s)⟩

/-! ## The round trip -/

/-- What fails the assertion of `slice_tx`. -/
theorem sliceTx_assertion (H : Hashes) {btx : BitcoinTx} (h : ¬ Sliceable btx) (id : Txid48) :
    sliceTx H btx id = .error .assertion := by
  refine sliceTx_error H ?_ id
  unfold Sliceable at h
  unfold numSlices
  generalize TxSlice.numSlicesFor (1 + btx.length) = n at h ⊢
  have hbig : 1 < varintLen n := by
    unfold varintLen
    split_ifs <;> omega
  rw [if_pos hbig, if_neg h]

/-- **Round trip of slicing.** Unless its assertion fires, `slice_tx` returns slices from which
`rebuild_tx` makes the same transaction. -/
theorem slices_round_trip (H : Hashes) {A : Allocator} (hA : A.Succeeds) (btx : BitcoinTx)
    (id : Txid48) (h : sliceTx H btx id ≠ .error .assertion) :
    ∃ v, sliceTx H btx id = .ok v ∧ rebuildTx A v = .ok (some btx) := by
  have hsl : Sliceable btx := by
    by_contra hno
    exact h (sliceTx_assertion H hno id)
  exact ⟨slicesOf H btx id, sliceTx_eq id hsl, rebuildTx_slicesOf id hA hsl⟩

theorem slices_round_trip_headBtx : ∃ v, sliceTx headHashes (headBtx 2 300) 0 = .ok v ∧
    v.length = 6 ∧ rebuildTx (fun _ _ => true) v = .ok (some (headBtx 2 300)) := by
  obtain ⟨v, hv, hrebuild⟩ := slices_round_trip headHashes (fun _ _ => rfl) (headBtx 2 300) 0 (by
    rw [sliceTx_eq 0 (sliceable_headBtx 2 300)]
    exact nofun)
  have hslices := (sliceTx_eq 0 (sliceable_headBtx 2 300)).symm.trans hv
  refine ⟨v, hv, ?_, hrebuild⟩
  rw [← Except.ok.inj hslices]
  exact slicesOf_length 0 (numSlices_headBtx 2)

end BitcoinIblt
