import BitcoinIblt.RecoverBlock

/-!
# Assembling transactions

The assembly loop is given a set of slices in the order of (id, fragment id). Fragment ids are 16
bits wide and start at a hash of the id, so they can wrap around. `slice_tx` and the difference
table count modulo `2 ^ 16`, but here the successor test is made on `int`s and the set puts the
wrapped slices first. The loop gets all transactions back exactly if none of them wraps
(`assembly_iff`).
-/

namespace BitcoinIblt

variable {H : Hashes} {A : Allocator}

/-- The fragment ids of the transaction run past `0xffff`. -/
def Wraps (H : Hashes) (p : BitcoinTx × Txid48) : Prop :=
  0x10000 < (p.2.fragBase H).toNat + (slicesOf H p.1 p.2).length

/-! ## The order of the slices of one transaction -/

theorem fragid_toNat {btx : BitcoinTx} {id : Txid48} {i : ℕ} (hi : i < (slicesOf H btx id).length) :
    (slicesOf H btx id)[i].fragid.toNat = (i + (id.fragBase H).toNat) % 2 ^ 16 := by
  rw [(slicesOf_getElem id hi).2, BitVec.toNat_add, BitVec.toNat_ofNat, Nat.mod_add_mod]

/-- Without a wrap the slices are in order. -/
theorem slicesOf_sorted {p : BitcoinTx × Txid48} (h : ¬ Wraps H p) :
    (slicesOf H p.1 p.2).Pairwise TxSlice.lt := by
  unfold Wraps at h
  rw [List.pairwise_iff_getElem]
  intro i j hi hj hij
  rw [TxSlice.lt_iff_key, TxSlice.key, TxSlice.key, (slicesOf_getElem p.2 hi).1,
    (slicesOf_getElem p.2 hj).1, fragid_toNat hi, fragid_toNat hj, Nat.mod_eq_of_lt (by omega),
    Nat.mod_eq_of_lt (by omega)]
  omega

/-- Without a wrap the slices of transactions in the order of their ids are in order. -/
theorem flatMap_slicesOf_sorted {T : List (BitcoinTx × Txid48)}
    (hids : T.Pairwise fun p q => p.2 < q.2) (h : ∀ p ∈ T, ¬ Wraps H p) :
    (T.flatMap fun p => slicesOf H p.1 p.2).Pairwise TxSlice.lt := by
  refine List.pairwise_flatMap.mpr ⟨fun p hp => slicesOf_sorted (h p hp), hids.imp ?_⟩
  intro p q hlt s hs t ht
  rw [TxSlice.lt, txidbits_of_mem p.2 hs, txidbits_of_mem q.2 ht, if_pos (BitVec.ne_of_lt hlt)]
  exact hlt

/-- They are the slices of a set. -/
theorem exists_sliceSet {T : List (BitcoinTx × Txid48)}
    (hids : T.Pairwise fun p q => p.2 < q.2) (h : ∀ p ∈ T, ¬ Wraps H p) :
    ∃ slices : OrdSet TxSlice.lt,
      slices.toList.length = (T.map fun p => (slicesOf H p.1 p.2).length).sum ∧
      ∀ s, s ∈ slices ↔ ∃ p ∈ T, s ∈ slicesOf H p.1 p.2 :=
  ⟨⟨_, flatMap_slicesOf_sorted hids h⟩, List.length_flatMap, fun _ => List.mem_flatMap⟩

/-- After a wrap some slice other than the first has the fragment id 0. -/
theorem exists_fragid_zero {p : BitcoinTx × Txid48} (h : Wraps H p)
    (hlen : (slicesOf H p.1 p.2).length ≤ 0xffff) :
    p.2.fragBase H ≠ 0 ∧ ∃ s ∈ slicesOf H p.1 p.2, s.fragid = 0 := by
  unfold Wraps at h
  have hbase := (p.2.fragBase H).isLt
  refine ⟨fun h₀ => ?_, ?_⟩
  · rw [h₀] at h
    simp only [BitVec.ofNat_eq_ofNat, BitVec.toNat_ofNat] at h
    omega
  · have hi : 0x10000 - (p.2.fragBase H).toNat < (slicesOf H p.1 p.2).length := by omega
    refine ⟨_, List.getElem_mem hi, BitVec.eq_of_toNat_eq ?_⟩
    rw [fragid_toNat hi, Nat.sub_add_cancel (by omega)]
    rfl

/-! ## The slices of the lowest id -/

/-- A sorted list starts with the elements of its lowest id. -/
theorem split_lowest {l : List TxSlice} (hl : l.Pairwise TxSlice.lt) {id : Txid48}
    (hid : ∀ s ∈ l, id ≤ s.txidbits) :
    l = l.filter (fun s => s.txidbits = id) ++ l.filter fun s => s.txidbits ≠ id := by
  refine OrdSet.toList_eq_of_mem_iff hl ?_ fun s => ?_
  · refine List.pairwise_append.mpr ⟨hl.filter _, hl.filter _, fun a ha b hb => ?_⟩
    simp only [List.mem_filter, decide_eq_true_eq] at ha hb
    have hle := hid b hb.1
    have hne : a.txidbits ≠ b.txidbits := fun e => hb.2 (e.symm.trans ha.2)
    have hne' : a.txidbits.toNat ≠ b.txidbits.toNat := fun e => hne (BitVec.eq_of_toNat_eq e)
    rw [TxSlice.lt, if_pos hne, BitVec.lt_def]
    rw [BitVec.le_def, ← ha.2] at hle
    omega
  · simp only [List.mem_append, List.mem_filter, decide_eq_true_eq]
    tauto

/-- An element that nothing is below comes first. -/
theorem head_of_minimal {l : List TxSlice} (hl : l.Pairwise TxSlice.lt) {z : TxSlice} (hz : z ∈ l)
    (hmin : ∀ s ∈ l, ¬ s.lt z) : ∃ tail, l = z :: tail := by
  cases l with
  | nil => exact absurd hz List.not_mem_nil
  | cons s l =>
    rcases List.mem_cons.mp hz with rfl | hz
    · exact ⟨l, rfl⟩
    · exact absurd ((List.pairwise_cons.mp hl).1 z hz) (hmin s List.mem_cons_self)

/-! ## One transaction -/

theorem asmLoop_cons (s : TxSlice) (l : List TxSlice) (st st' : AsmState)
    (h : asmStep H A st s = .ok (some st')) : asmLoop H A (s :: l) st = asmLoop H A l st' := by
  rw [asmLoop, h]
  rfl

/-- A slice that should be the first of its transaction and is not. -/
theorem asmLoop_none {s : TxSlice} {l : List TxSlice} {st : AsmState} (hcount : st.count = 0)
    (h : s.getTxid48.fragBase H ≠ s.fragid) : asmLoop H A (s :: l) st = .ok none := by
  rw [asmLoop, asmStep, placeSlice, if_pos hcount, if_pos h]
  rfl

section Group

variable (H) (p : BitcoinTx × Txid48)

/-- The state after the first `k` slices of a transaction were placed. -/
def placed (k : ℕ) (recovered : List BitcoinTx) : AsmState :=
  ⟨k, (slicesOf H p.1 p.2).take k ++
    List.replicate ((slicesOf H p.1 p.2).length - k) TxSlice.blank, recovered⟩

/-- The state after `k` turns: a complete transaction is in `recovered`. -/
def settled (k : ℕ) (recovered : List BitcoinTx) : AsmState :=
  if k = (slicesOf H p.1 p.2).length then ⟨0, slicesOf H p.1 p.2, recovered ++ [p.1]⟩
  else placed H p k recovered

variable {H} {p}

theorem placed_count (k : ℕ) (recovered : List BitcoinTx) :
    (placed H p k recovered).count = k := rfl

theorem length_placed {k : ℕ} (hk : k ≤ (slicesOf H p.1 p.2).length)
    (recovered : List BitcoinTx) :
    (placed H p k recovered).transaction.length = (slicesOf H p.1 p.2).length := by
  rw [placed, List.length_append, List.length_take, List.length_replicate]
  omega

/-- Placing the next slice fills the next place. -/
theorem placed_succ {k : ℕ} (hk : k < (slicesOf H p.1 p.2).length) (recovered : List BitcoinTx) :
    (placed H p k recovered).transaction.set k (slicesOf H p.1 p.2)[k] =
      (placed H p (k + 1) recovered).transaction := by
  obtain ⟨m, hm⟩ := Nat.exists_eq_add_of_lt hk
  have hrest : (slicesOf H p.1 p.2).length - k = m + 1 := by omega
  have hrest' : (slicesOf H p.1 p.2).length - (k + 1) = m := by omega
  have htake : ((slicesOf H p.1 p.2).take k).length = k := by
    rw [List.length_take, Nat.min_eq_left hk.le]
  simp only [placed, hrest, hrest', List.replicate_succ]
  rw [List.set_append_right _ _ htake.le, htake, Nat.sub_self, List.set_cons_zero,
    List.take_succ_eq_append_getElem hk, List.append_assoc]
  rfl

variable (hA : A.Succeeds) (hp : Sliceable p.1)

include hA hp in
/-- A complete transaction is rebuilt, an incomplete one is left. -/
theorem completeTx_placed {k : ℕ} (hk : k ≤ (slicesOf H p.1 p.2).length)
    (recovered : List BitcoinTx) :
    completeTx A (placed H p k recovered) = .ok (some (settled H p k recovered)) := by
  rw [completeTx, length_placed hk, settled, placed_count]
  by_cases h : k = (slicesOf H p.1 p.2).length
  · have htr : (placed H p k recovered).transaction = slicesOf H p.1 p.2 := by
      simp [placed, h]
    rw [if_pos h, htr, rebuildTx_slicesOf p.2 hA hp, ok_bind, if_pos h]
    simp only [placed]
    rfl
  · rw [if_neg h, if_neg h]
    rfl

variable (hlen : (slicesOf H p.1 p.2).length ≤ 0xffff)

include hp hlen in
/-- The first slice says how many there are. -/
theorem placeSlice_first (h₀ : 0 < (slicesOf H p.1 p.2).length) (transaction : List TxSlice)
    (recovered : List BitcoinTx) :
    placeSlice H ⟨0, transaction, recovered⟩ (slicesOf H p.1 p.2)[0] =
      .ok (some (placed H p 1 recovered)) := by
  have hn := numSlices_eq (H := H) p.2 hp
  have hflat := flat_slicesOf (H := H) p.2 hn
  obtain ⟨hid, hfrag⟩ := slicesOf_getElem p.2 h₀
  obtain ⟨first, tail, hv⟩ := List.exists_cons_of_ne_nil (slicesOf_ne_nil (H := H) p.2 hp)
  have hfirst : (slicesOf H p.1 p.2)[0] = first := by simp only [hv, List.getElem_cons_zero]
  rw [sliceBytes, List.append_assoc] at hflat
  have hexp : (slicesOf H p.1 p.2)[0].slicesExpected =
      .ok (BitVec.ofNat 64 (slicesOf H p.1 p.2).length) := by
    rw [hfirst]
    exact slicesExpected_of_flat (by rw [← hv]; exact hflat)
  have hnum : (BitVec.ofNat 64 (slicesOf H p.1 p.2).length).toNat =
      (slicesOf H p.1 p.2).length := by
    rw [BitVec.toNat_ofNat, Nat.mod_eq_of_lt (by omega)]
  have hne : ¬ (BitVec.ofNat 64 (slicesOf H p.1 p.2).length = 0 ∨
      0xffff < (BitVec.ofNat 64 (slicesOf H p.1 p.2).length).toNat) := by
    rintro (h | h)
    · have := congrArg BitVec.toNat h
      rw [hnum] at this
      exact absurd this h₀.ne'
    · omega
  have hset := placed_succ h₀ recovered
  rw [placeSlice, if_pos rfl, if_neg, hexp, ok_bind, if_neg hne, hnum]
  · simp only [placed, List.take_zero, List.nil_append, Nat.sub_zero] at hset ⊢
    rw [hset]
    rfl
  · rw [TxSlice.getTxid48, hid, hfrag, not_not]
    simp

variable (hwrap : ¬ Wraps H p)

include hwrap in
/-- Each further slice has the id of the one before and the next fragment id. -/
theorem placeSlice_next {k : ℕ} (hk₀ : 0 < k) (hk : k < (slicesOf H p.1 p.2).length)
    (recovered : List BitcoinTx) :
    placeSlice H (placed H p k recovered) (slicesOf H p.1 p.2)[k] =
      .ok (some (placed H p (k + 1) recovered)) := by
  unfold Wraps at hwrap
  have hpred : k - 1 < (slicesOf H p.1 p.2).length := by omega
  have hlast : (placed H p k recovered).last = .ok (slicesOf H p.1 p.2)[k - 1] := by
    have hget : (placed H p k recovered).transaction[k - 1]? =
        some (slicesOf H p.1 p.2)[k - 1] := by
      rw [placed, List.getElem?_append_left (by rw [List.length_take]; omega),
        List.getElem?_take_of_lt (by omega), List.getElem?_eq_getElem hpred]
    rw [AsmState.last, show (placed H p k recovered).count = k from rfl, hget]
  have hids : (slicesOf H p.1 p.2)[k].txidbits = (slicesOf H p.1 p.2)[k - 1].txidbits := by
    rw [(slicesOf_getElem p.2 hk).1, (slicesOf_getElem p.2 hpred).1]
  have hfrag : (slicesOf H p.1 p.2)[k].fragid.toNat =
      (slicesOf H p.1 p.2)[k - 1].fragid.toNat + 1 := by
    rw [fragid_toNat hk, fragid_toNat hpred, Nat.mod_eq_of_lt (by omega),
      Nat.mod_eq_of_lt (by omega)]
    omega
  rw [placeSlice, if_neg (by rw [placed_count]; omega), hlast, ok_bind, if_neg (not_not.mpr hids),
    if_neg (not_not.mpr hfrag), length_placed hk.le, placed_count, if_neg (Nat.not_le.mpr hk)]
  have hset := placed_succ hk recovered
  simp only [placed] at hset ⊢
  rw [hset]
  rfl

include hA hp hwrap in
/-- From `k` slices of a transaction on, the loop reads the others and rebuilds it. -/
theorem asmLoop_rest {k : ℕ} (hk₀ : 0 < k) (hk : k ≤ (slicesOf H p.1 p.2).length)
    (rest : List TxSlice) (recovered : List BitcoinTx) :
    asmLoop H A ((slicesOf H p.1 p.2).drop k ++ rest) (settled H p k recovered) =
      asmLoop H A rest ⟨0, slicesOf H p.1 p.2, recovered ++ [p.1]⟩ := by
  induction hn : (slicesOf H p.1 p.2).length - k generalizing k with
  | zero =>
    have hk' : k = (slicesOf H p.1 p.2).length := by omega
    rw [settled, if_pos hk', hk', List.drop_length, List.nil_append]
  | succ n ih =>
    have hlt : k < (slicesOf H p.1 p.2).length := by omega
    have hstep : asmStep H A (placed H p k recovered) (slicesOf H p.1 p.2)[k] =
        .ok (some (settled H p (k + 1) recovered)) := by
      rw [asmStep, placeSlice_next hwrap hk₀ hlt, ok_bind]
      exact completeTx_placed hA hp hlt recovered
    rw [settled, if_neg hlt.ne, List.drop_eq_getElem_cons hlt, List.cons_append,
      asmLoop_cons _ _ _ _ hstep]
    exact ih (by omega) hlt (by omega)

include hA hp hlen hwrap in
/-- **One transaction.** Between two transactions, the loop reads the slices of the next one. -/
theorem asmLoop_group (rest transaction : List TxSlice) (recovered : List BitcoinTx) :
    asmLoop H A (slicesOf H p.1 p.2 ++ rest) ⟨0, transaction, recovered⟩ =
      asmLoop H A rest ⟨0, slicesOf H p.1 p.2, recovered ++ [p.1]⟩ := by
  have h₀ : 0 < (slicesOf H p.1 p.2).length :=
    List.length_pos_iff.mpr (slicesOf_ne_nil p.2 hp)
  have hstep : asmStep H A ⟨0, transaction, recovered⟩ (slicesOf H p.1 p.2)[0] =
      .ok (some (settled H p 1 recovered)) := by
    rw [asmStep, placeSlice_first hp hlen h₀, ok_bind]
    exact completeTx_placed hA hp h₀ recovered
  have hcons : slicesOf H p.1 p.2 = (slicesOf H p.1 p.2)[0] :: (slicesOf H p.1 p.2).drop 1 := by
    rw [← List.drop_eq_getElem_cons h₀, List.drop_zero]
  conv_lhs => rw [hcons]
  rw [List.cons_append, asmLoop_cons _ _ _ _ hstep]
  exact asmLoop_rest hA hp hwrap Nat.one_pos h₀ rest recovered

end Group

/-! ## All transactions -/

/-- The slices of the transactions of `T`, as a sorted list. -/
def SlicesOfAll (H : Hashes) (T : List (BitcoinTx × Txid48)) (l : List TxSlice) : Prop :=
  l.Pairwise TxSlice.lt ∧ ∀ s, s ∈ l ↔ ∃ p ∈ T, s ∈ slicesOf H p.1 p.2

/-- How the loop ends: it gives up if a transaction wraps, and else recovers all of `T`. -/
def AsmEnds (H : Hashes) (T : List (BitcoinTx × Txid48)) (recovered : List BitcoinTx)
    (r : Run (Option AsmState)) : Prop :=
  ((∃ p ∈ T, Wraps H p) ∧ r = .ok none) ∨
    ((∀ p ∈ T, ¬ Wraps H p) ∧
      ∃ transaction, r = .ok (some ⟨0, transaction, recovered ++ T.map Prod.fst⟩))

section Lowest

variable {p : BitcoinTx × Txid48} {T : List (BitcoinTx × Txid48)} {l : List TxSlice}
  (hids : ∀ q ∈ T, p.2 < q.2) (hl : SlicesOfAll H (p :: T) l)

include hids hl

/-- The slices of the lowest id, and those of the others. -/
theorem lowest_first :
    l = l.filter (fun s => s.txidbits = p.2) ++ l.filter fun s => s.txidbits ≠ p.2 := by
  refine split_lowest hl.1 fun s hs => ?_
  obtain ⟨q, hq, hsq⟩ := (hl.2 s).mp hs
  rw [txidbits_of_mem q.2 hsq]
  rcases List.mem_cons.mp hq with rfl | hq
  · exact BitVec.le_refl _
  · exact BitVec.le_of_lt (hids q hq)

theorem slices_of_lowest (s : TxSlice) :
    s ∈ l.filter (fun s => s.txidbits = p.2) ↔ s ∈ slicesOf H p.1 p.2 := by
  rw [List.mem_filter, decide_eq_true_eq, hl.2]
  constructor
  · rintro ⟨⟨q, hq, hsq⟩, hid⟩
    rcases List.mem_cons.mp hq with rfl | hq
    · exact hsq
    · rw [← hid, txidbits_of_mem q.2 hsq] at hids
      exact absurd (hids q hq) (BitVec.lt_irrefl _)
  · exact fun hs => ⟨⟨p, List.mem_cons_self, hs⟩, txidbits_of_mem p.2 hs⟩

theorem slices_of_others : SlicesOfAll H T (l.filter fun s => s.txidbits ≠ p.2) := by
  refine ⟨hl.1.filter _, fun s => ?_⟩
  rw [List.mem_filter, decide_eq_true_eq, hl.2]
  constructor
  · rintro ⟨⟨q, hq, hsq⟩, hid⟩
    rcases List.mem_cons.mp hq with rfl | hq
    · exact absurd (txidbits_of_mem _ hsq) hid
    · exact ⟨q, hq, hsq⟩
  · rintro ⟨q, hq, hsq⟩
    refine ⟨⟨q, List.mem_cons_of_mem _ hq, hsq⟩, fun hid => ?_⟩
    rw [txidbits_of_mem q.2 hsq] at hid
    exact absurd (hid ▸ hids q hq) (BitVec.lt_irrefl _)

/-- A wrapped transaction comes with the slice 0 first, which is not its first slice. -/
theorem asmLoop_wrapped (hwrap : Wraps H p) (hlen : (slicesOf H p.1 p.2).length ≤ 0xffff)
    (transaction : List TxSlice) (recovered : List BitcoinTx) :
    asmLoop H A l ⟨0, transaction, recovered⟩ = .ok none := by
  obtain ⟨hbase, z, hz, hzero⟩ := exists_fragid_zero hwrap hlen
  have hid := txidbits_of_mem p.2 hz
  obtain ⟨tail, htail⟩ : ∃ tail, l = z :: tail := by
    refine head_of_minimal hl.1 ((hl.2 z).mpr ⟨p, List.mem_cons_self, hz⟩) fun s hs hlt => ?_
    obtain ⟨q, hq, hsq⟩ := (hl.2 s).mp hs
    rw [TxSlice.lt_iff_key, TxSlice.key, TxSlice.key, txidbits_of_mem q.2 hsq, hid, hzero] at hlt
    rcases List.mem_cons.mp hq with rfl | hq
    · simp at hlt
    · have := BitVec.lt_def.mp (hids q hq)
      simp only [BitVec.ofNat_eq_ofNat, BitVec.toNat_ofNat] at hlt
      omega
  rw [htail]
  refine asmLoop_none rfl ?_
  rwa [TxSlice.getTxid48, hid, hzero]

end Lowest

/-- The run over the slices of transactions given in the order of their ids. -/
theorem asmLoop_sorted (hA : A.Succeeds) {T : List (BitcoinTx × Txid48)}
    (hids : T.Pairwise fun p q => p.2 < q.2)
    (hT : ∀ p ∈ T, Sliceable p.1 ∧ (slicesOf H p.1 p.2).length ≤ 0xffff) {l : List TxSlice}
    (hl : SlicesOfAll H T l) (transaction : List TxSlice) (recovered : List BitcoinTx) :
    AsmEnds H T recovered (asmLoop H A l ⟨0, transaction, recovered⟩) := by
  induction T generalizing l transaction recovered with
  | nil =>
    have hnil : l = [] := List.eq_nil_iff_forall_not_mem.mpr fun s hs => by
      simpa using (hl.2 s).mp hs
    subst hnil
    exact Or.inr ⟨by simp, transaction, by simp [asmLoop]⟩
  | cons p T ih =>
    obtain ⟨hlow, hids⟩ := List.pairwise_cons.mp hids
    obtain ⟨⟨hp, hlen⟩, hT⟩ := List.forall_mem_cons.mp hT
    by_cases hwrap : Wraps H p
    · exact Or.inl ⟨⟨p, List.mem_cons_self, hwrap⟩, asmLoop_wrapped hlow hl hwrap hlen _ _⟩
    · have hfirst : l.filter (fun s => s.txidbits = p.2) = slicesOf H p.1 p.2 :=
        OrdSet.toList_eq_of_mem_iff (hl.1.filter _) (slicesOf_sorted hwrap)
          (slices_of_lowest hlow hl)
      rw [lowest_first hlow hl, hfirst, asmLoop_group hA hp hlen hwrap]
      rcases ih hids hT (slices_of_others hlow hl) (slicesOf H p.1 p.2) (recovered ++ [p.1]) with
        ⟨⟨q, hq, hqw⟩, hr⟩ | ⟨hfine, tr, hr⟩
      · exact Or.inl ⟨⟨q, List.mem_cons_of_mem _ hq, hqw⟩, hr⟩
      · refine Or.inr ⟨List.forall_mem_cons.mpr ⟨hwrap, hfine⟩, tr, ?_⟩
        rw [hr, List.map_cons, List.append_assoc]
        rfl

/-- Distinct ids can be put in order. -/
theorem exists_sorted {T : List (BitcoinTx × Txid48)} (hids : (T.map Prod.snd).Nodup) :
    ∃ T' : List (BitcoinTx × Txid48), T'.Perm T ∧ T'.Pairwise fun p q => p.2 < q.2 := by
  refine ⟨T.mergeSort fun p q => p.2.toNat ≤ q.2.toNat, List.mergeSort_perm _ _, ?_⟩
  have hle : (T.mergeSort fun p q => p.2.toNat ≤ q.2.toNat).Pairwise
      fun p q => decide (p.2.toNat ≤ q.2.toNat) = true :=
    List.pairwise_mergeSort (fun _ _ _ => by simpa using Nat.le_trans)
      (fun _ _ => by simpa using Nat.le_total _ _) T
  have hne : ((T.mergeSort fun p q => p.2.toNat ≤ q.2.toNat).map Prod.snd).Nodup :=
    ((List.mergeSort_perm _ _).map _).nodup_iff.mpr hids
  refine (hle.and (List.pairwise_map.mp hne)).imp fun {a b} h => ?_
  obtain ⟨h₁, h₂⟩ := h
  have h₃ : a.2.toNat ≠ b.2.toNat := fun e => h₂ (BitVec.eq_of_toNat_eq e)
  rw [BitVec.lt_def]
  have := of_decide_eq_true h₁
  omega

/-- The slices of transactions with distinct ids, in one set: the assembly loop gives up if a
transaction wraps, and else recovers all of them. -/
theorem asmLoop_slices (hA : A.Succeeds) {T : List (BitcoinTx × Txid48)}
    (hids : (T.map Prod.snd).Nodup)
    (hT : ∀ p ∈ T, Sliceable p.1 ∧ (slicesOf H p.1 p.2).length ≤ 0xffff)
    {slices : OrdSet TxSlice.lt}
    (hslices : ∀ s, s ∈ slices ↔ ∃ p ∈ T, s ∈ slicesOf H p.1 p.2) :
    ((∃ p ∈ T, Wraps H p) ∧ asmLoop H A slices.toList ⟨0, [], []⟩ = .ok none) ∨
      ((∀ p ∈ T, ¬ Wraps H p) ∧ ∃ transaction recovered,
        asmLoop H A slices.toList ⟨0, [], []⟩ = .ok (some ⟨0, transaction, recovered⟩) ∧
          recovered.Perm (T.map Prod.fst)) := by
  obtain ⟨T', hperm, hsorted⟩ := exists_sorted hids
  have hT' : ∀ p ∈ T', Sliceable p.1 ∧ (slicesOf H p.1 p.2).length ≤ 0xffff :=
    fun p hp => hT p (hperm.mem_iff.mp hp)
  have hl : SlicesOfAll H T' slices.toList := by
    refine ⟨slices.sorted, fun s => (hslices s).trans ?_⟩
    simp only [hperm.mem_iff]
  rcases asmLoop_sorted hA hsorted hT' hl [] [] with ⟨⟨p, hp, hwrap⟩, hr⟩ | ⟨hfine, tr, hr⟩
  · exact Or.inl ⟨⟨p, hperm.mem_iff.mp hp, hwrap⟩, hr⟩
  · exact Or.inr ⟨fun p hp => hfine p (hperm.mem_iff.mpr hp), tr, _, hr, hperm.map _⟩

/-- **Assembly.** Given exactly the slices of transactions with distinct ids, the loop ends and has
recovered each of them once if and only if the fragment ids of none of them wrap around. -/
theorem assembly_iff (hA : A.Succeeds) (T : List (BitcoinTx × Txid48))
    (hids : (T.map Prod.snd).Nodup)
    (hT : ∀ p ∈ T, Sliceable p.1 ∧ (slicesOf H p.1 p.2).length ≤ 0xffff)
    (slices : OrdSet TxSlice.lt)
    (hslices : ∀ s, s ∈ slices ↔ ∃ p ∈ T, s ∈ slicesOf H p.1 p.2) :
    (∃ st, asmLoop H A slices.toList ⟨0, [], []⟩ = .ok (some st) ∧ st.count = 0 ∧
        st.recovered.Perm (T.map Prod.fst)) ↔
      ∀ p ∈ T, (p.2.fragBase H).toNat + (slicesOf H p.1 p.2).length ≤ 0x10000 := by
  rcases asmLoop_slices hA hids hT hslices with
    ⟨⟨p, hp, hwrap⟩, hr⟩ | ⟨hfine, tr, recovered, hr, hperm⟩
  · refine iff_of_false ?_ fun h => Nat.not_le.mpr hwrap (h p hp)
    rintro ⟨st, hst, -⟩
    rw [hr] at hst
    cases hst
  · exact iff_of_true ⟨_, hr, rfl, hperm⟩ fun p hp => Nat.not_lt.mp (hfine p hp)

/-- Two transactions under ids of their own, one of them in six slices. -/
def headPair : List (BitcoinTx × Txid48) := [(headBtx 2 300, 1), (headBtx 1 0, 2)]

theorem headPair_ids : (headPair.map Prod.snd).Nodup := by
  show ([1, 2] : List Txid48).Nodup
  decide

theorem headPair_sorted : headPair.Pairwise fun p q => p.2 < q.2 := by
  refine List.pairwise_pair.mpr ?_
  show (1 : Txid48) < 2
  decide

theorem headPair_sliceable : ∀ p ∈ headPair,
    Sliceable p.1 ∧ (slicesOf headHashes p.1 p.2).length ≤ 0xffff := by
  refine List.forall_mem_cons.mpr ⟨?_, List.forall_mem_singleton.mpr ?_⟩
  · exact ⟨sliceable_headBtx 2 300, slicesOf_headBtx_le headHashes 2 300 1⟩
  · exact ⟨sliceable_headBtx 1 0, slicesOf_headBtx_le headHashes 1 0 2⟩

theorem length_headPair : (slicesOf headHashes (headBtx 2 300) 1).length = 6 ∧
    (slicesOf headHashes (headBtx 1 0) 2).length = 1 := by
  obtain ⟨s, hs, -⟩ := slicesOf_headBtx_zero headHashes 1 2
  exact ⟨slicesOf_length 1 (numSlices_headBtx 2), congrArg List.length hs⟩

theorem headPair_not_wraps : ∀ p ∈ headPair, ¬ Wraps headHashes p := by
  have hbase : (Txid48.fragBase headHashes 1).toNat + 6 ≤ 0x10000 := by decide
  have hbase' : (Txid48.fragBase headHashes 2).toNat + 1 ≤ 0x10000 := by decide
  refine List.forall_mem_cons.mpr ⟨?_, List.forall_mem_singleton.mpr ?_⟩
  · unfold Wraps
    rw [length_headPair.1]
    exact Nat.not_lt.mpr hbase
  · unfold Wraps
    rw [length_headPair.2]
    exact Nat.not_lt.mpr hbase'

/-- The set of their slices. -/
theorem exists_headPair_slices : ∃ slices : OrdSet TxSlice.lt, slices.toList.length = 7 ∧
    ∀ s, s ∈ slices ↔ ∃ p ∈ headPair, s ∈ slicesOf headHashes p.1 p.2 := by
  obtain ⟨slices, hlen, hmem⟩ := exists_sliceSet headPair_sorted headPair_not_wraps
  refine ⟨slices, hlen.trans ?_, hmem⟩
  simp only [headPair, List.map_cons, List.map_nil, length_headPair]
  rfl

theorem assembly_iff_headPair : ∃ (slices : OrdSet TxSlice.lt) (st : AsmState),
    slices.toList.length = 7 ∧
      (∀ s, s ∈ slices ↔ ∃ p ∈ headPair, s ∈ slicesOf headHashes p.1 p.2) ∧
      asmLoop headHashes (fun _ _ => true) slices.toList ⟨0, [], []⟩ = .ok (some st) ∧
      st.count = 0 ∧ st.recovered.Perm [headBtx 2 300, headBtx 1 0] := by
  obtain ⟨slices, hlen, hmem⟩ := exists_headPair_slices
  obtain ⟨st, h⟩ := (assembly_iff (A := fun _ _ => true) (fun _ _ => rfl) headPair headPair_ids
    headPair_sliceable slices hmem).mpr fun p hp => Nat.not_lt.mp (headPair_not_wraps p hp)
  exact ⟨slices, st, hlen, hmem, h⟩

/-! ## A transaction that is lost -/

/-- Hash functions that return ones: every id has the base `0xffff`. -/
def onesHashes : Hashes := ⟨fun _ => ⟨List.replicate 32 0xFF, List.length_replicate⟩, fun _ _ => 0⟩

/-- An output with a script of 64 bytes. -/
def longOutput : BitcoinTxOutput := ⟨0, 64, List.replicate 64 0, rfl⟩

/-- The blank transaction with that output: two slices. -/
def twoSliceTx : BitcoinTx :=
  { BitcoinTx.blank with outputCount := 1, output := [longOutput], length_output := rfl }

def twoSliceId : Txid48 := txid48 onesHashes 1 (twoSliceTx.txid onesHashes)

theorem numSlices_twoSliceTx : numSlices twoSliceTx = .ok 2 := by
  rw [numSlices, length_eq]
  rfl

/-- The loop returns `false` on the two slices of a transaction with the base `0xffff`: their
fragment ids are `0xffff` and 0. -/
theorem assembly_loses_twoSliceTx : ∃ slices : OrdSet TxSlice.lt,
    Sliceable twoSliceTx ∧ (slicesOf onesHashes twoSliceTx twoSliceId).length ≤ 0xffff ∧
      (∀ s, s ∈ slices ↔ s ∈ slicesOf onesHashes twoSliceTx twoSliceId) ∧
      asmLoop onesHashes (fun _ _ => true) slices.toList ⟨0, [], []⟩ = .ok none := by
  have hlen : (slicesOf onesHashes twoSliceTx twoSliceId).length = 2 :=
    slicesOf_length _ numSlices_twoSliceTx
  have hbase : twoSliceId.fragBase onesHashes = 0xffff := rfl
  obtain ⟨v₀, v₁, hv⟩ := List.length_eq_two.mp hlen
  have hlt₀ : 0 < (slicesOf onesHashes twoSliceTx twoSliceId).length := by omega
  have hlt₁ : 1 < (slicesOf onesHashes twoSliceTx twoSliceId).length := by omega
  have h₀ := slicesOf_getElem twoSliceId hlt₀
  have h₁ := slicesOf_getElem twoSliceId hlt₁
  simp only [hv, List.getElem_cons_zero, List.getElem_cons_succ, hbase] at h₀ h₁
  have hlt : v₁.lt v₀ := by
    rw [TxSlice.lt_iff_key, TxSlice.key, TxSlice.key, h₀.1, h₁.1, h₀.2, h₁.2]
    simp
  refine ⟨⟨[v₁, v₀], List.pairwise_pair.mpr hlt⟩, sliceable_iff.mpr ⟨2, numSlices_twoSliceTx⟩,
    by omega, fun s => ?_, asmLoop_none rfl ?_⟩
  · simp [OrdSet.mem_def, hv, or_comm]
  · rw [TxSlice.getTxid48, h₁.1, h₁.2, hbase]
    decide

end BitcoinIblt
