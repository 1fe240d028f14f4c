import BitcoinIblt.IbltSync

/-!
# The difference of two tables of transactions

The difference table of two maps is the sum of the slices only the first has minus the sum of the
slices only the second has (`new_ofTxmap`): the common transactions cancel, whatever their slices
hit.
-/

namespace BitcoinIblt

open SignedTable RawIblt

section Difference

variable {H : Hashes} {size : ℕ} (hsize : 0 < size) {seed : U64} (hseed : seed ≠ 0)

include hsize hseed

/-- What the constructor computes from the tables of two maps that agree. -/
theorem new_ofTxmap {P Q : Txmap} (hagree : Txmap.Agree P Q)
    (hP : ∀ e ∈ P.entries, Sliceable e.2.btx) (hQ : ∀ e ∈ Q.entries, Sliceable e.2.btx)
    (junk : BucketType → Bool) :
    ∃ (rP rQ : RawIblt size) (d : Iblt size), ofTxmap H size seed P = .ok rP ∧
      ofTxmap H size seed Q = .ok rQ ∧ Iblt.new H junk rP rQ = .ok d ∧
      d.riblt.table = total (hits H) unit (entrySlices H seed (P.sdiff Q)) -
        total (hits H) unit (entrySlices H seed (Q.sdiff P)) ∧
      Iblt.InStep H d ∅ := by
  obtain ⟨rP, hrP, htP⟩ := ofTxmap_ok (H := H) hsize hseed hP
  obtain ⟨rQ, hrQ, htQ⟩ := ofTxmap_ok (H := H) hsize hseed hQ
  obtain ⟨d, hd, htable, hs⟩ := Iblt.new_ok H junk rP rQ
  refine ⟨rP, rQ, d, hrP, hrQ, hd, ?_, hs⟩
  rw [htable, htP, htQ]
  have h₁ := (P.sdiff_append_inter Q).flatMap_right (txSlices H seed)
  have h₂ := (((hagree.inter_perm).append_left _).trans (Q.sdiff_append_inter P)).flatMap_right
    (txSlices H seed)
  rw [List.flatMap_append] at h₁ h₂
  exact total_sub_total _ _ h₁ h₂

/-- A table of a map does not depend on the order of its entries. -/
theorem ofTxmap_perm {P P' : Txmap} (h : P'.entries.Perm P.entries)
    (hP : ∀ e ∈ P.entries, Sliceable e.2.btx) :
    ofTxmap H size seed P' = ofTxmap H size seed P := by
  obtain ⟨r, hr, ht⟩ := ofTxmap_ok (H := H) hsize hseed hP
  obtain ⟨r', hr', ht'⟩ := ofTxmap_ok (H := H) hsize hseed fun e he => hP e (h.mem_iff.mp he)
  rw [hr, hr', table_injective (ht'.trans ((total_perm _ _ (h.flatMap_right _)).trans ht.symm))]

/-- Both constructors build the same table, in whatever order they visit the transactions. -/
theorem ofSet_eq_ofTxmap {txs : List Tx} {P : Txmap}
    (h : (txs.map fun t => (t.btx.txid H, t)).Perm P.entries)
    (hP : ∀ e ∈ P.entries, Sliceable e.2.btx) :
    ofSet H size seed txs = ofTxmap H size seed P := by
  have htxs : ∀ t ∈ txs, Sliceable t.btx := fun t ht =>
    hP (t.btx.txid H, t) (h.mem_iff.mp (List.mem_map.mpr ⟨t, ht, rfl⟩))
  obtain ⟨r, hr, ht⟩ := ofTxmap_ok (H := H) hsize hseed hP
  obtain ⟨r', hr', ht'⟩ := ofSet_ok (H := H) hsize hseed htxs
  rw [hr, hr', table_injective (ht'.trans ((total_perm _ _ (h.flatMap_right _)).trans ht.symm))]

theorem ofSet_perm {txs txs' : List Tx} (h : txs'.Perm txs) (htxs : ∀ t ∈ txs, Sliceable t.btx) :
    ofSet H size seed txs' = ofSet H size seed txs := by
  obtain ⟨r, hr, ht⟩ := ofSet_ok (H := H) hsize hseed htxs
  obtain ⟨r', hr', ht'⟩ := ofSet_ok (H := H) hsize hseed fun t ht => htxs t (h.mem_iff.mp ht)
  rw [hr, hr', table_injective
    (ht'.trans ((total_perm _ _ ((h.map _).flatMap_right _)).trans ht.symm))]

end Difference

/-! ## Inserting and removing in any order -/

/-- An insertion into a raw table or a removal from it. -/
inductive TableOp
  | insert (s : TxSlice)
  | remove (s : TxSlice)

def TableOp.apply (H : Hashes) {size : ℕ} (r : RawIblt size) : TableOp → Run (RawIblt size)
  | .insert s => r.insert H s
  | .remove s => r.remove H s

/-- What an operation adds to the table of sums. -/
def TableOp.value (H : Hashes) (size : ℕ) : TableOp → Fin size → Cell
  | .insert s => put (hits H) unit s
  | .remove s => -put (hits H) unit s

theorem TableOp.apply_ok (H : Hashes) {size : ℕ} (hsize : 0 < size) (r : RawIblt size)
    (op : TableOp) : ∃ r', op.apply H r = .ok r' ∧ r'.table = r.table + op.value H size := by
  cases op with
  | insert s => exact insert_ok hsize r s
  | remove s =>
    obtain ⟨r', hr', ht⟩ := remove_ok (H := H) hsize r s
    exact ⟨r', hr', by rw [ht, sub_eq_add_neg]; rfl⟩

/-- Insert the slices of the first list and remove those of the second. -/
def tableOps (ins rem : List TxSlice) : List TableOp := ins.map .insert ++ rem.map .remove

theorem sum_tableOps (H : Hashes) (size : ℕ) (ins rem : List TxSlice) :
    ((tableOps ins rem).map (TableOp.value H size)).sum =
      total (hits H) unit ins - total (hits H) unit rem := by
  have hneg : ∀ l : List TxSlice,
      (l.map fun s => (-put (hits H) unit s : Fin size → Cell)).sum = -total (hits H) unit l := by
    intro l
    induction l with
    | nil => simp
    | cons s l ih => rw [List.map_cons, List.sum_cons, ih, total_cons, neg_add]
  rw [tableOps, List.map_append, List.sum_append, List.map_map, List.map_map, sub_eq_add_neg,
    ← hneg]
  rfl

/-- **Cancellation.** The difference of the tables of `P` and `Q` is what inserting the slices of
`P \ Q` into a blank table and removing the slices of `Q \ P` gives, in any order. Nor does the
order matter in which a container is visited, nor which constructor is used. -/
theorem difference_cancels (H : Hashes) {size : ℕ} (hsize : 0 < size) {seed : U64}
    (hseed : seed ≠ 0) (P Q : Txmap) (hagree : Txmap.Agree P Q)
    (hP : ∀ e ∈ P.entries, Sliceable e.2.btx) (hQ : ∀ e ∈ Q.entries, Sliceable e.2.btx)
    (junk : BucketType → Bool) :
    (∃ (rP rQ : RawIblt size) (d : Iblt size), ofTxmap H size seed P = .ok rP ∧
      ofTxmap H size seed Q = .ok rQ ∧ Iblt.new H junk rP rQ = .ok d ∧
      ∀ ops : List TableOp, ops.Perm (tableOps (entrySlices H seed (P.sdiff Q))
          (entrySlices H seed (Q.sdiff P))) →
        ops.foldlM (fun r op => op.apply H r) (blank size) = .ok d.riblt) ∧
    (∀ P' : Txmap, P'.entries.Perm P.entries →
      ofTxmap H size seed P' = ofTxmap H size seed P) ∧
    (∀ txs : List Tx, (txs.map fun t => (t.btx.txid H, t)).Perm P.entries →
      ofSet H size seed txs = ofTxmap H size seed P) ∧
    ∀ txs txs' : List Tx, txs'.Perm txs → (∀ t ∈ txs, Sliceable t.btx) →
      ofSet H size seed txs' = ofSet H size seed txs := by
  refine ⟨?_, fun P' h => ofTxmap_perm hsize hseed h hP,
    fun txs h => ofSet_eq_ofTxmap hsize hseed h hP,
    fun txs txs' h htxs => ofSet_perm hsize hseed h htxs⟩
  obtain ⟨rP, rQ, d, hrP, hrQ, hd, htable, -⟩ := new_ofTxmap (H := H) hsize hseed hagree hP hQ junk
  refine ⟨rP, rQ, d, hrP, hrQ, hd, fun ops hops => ?_⟩
  obtain ⟨r, hr, ht⟩ := foldlM_add ops (fun op _ r => TableOp.apply_ok H hsize r op) (blank size)
  rw [hr, show r = d.riblt from table_injective ?_]
  rw [ht, table_blank, zero_add, (hops.map _).sum_eq, sum_tableOps, htable]

theorem oneTx_sliceable : ∀ e ∈ oneTx.entries, Sliceable e.2.btx := fun e he => by
  rw [mem_oneTx.mp he]
  exact sliceable_blank

theorem headTxs_sliceable {l : List (U8 × U16)} (h : (l.map Prod.fst).Nodup) :
    ∀ e ∈ (headTxs l h).entries, Sliceable e.2.btx := by
  intro e he
  obtain ⟨p, -, rfl⟩ := mem_headTxs.mp he
  exact sliceable_headBtx p.1 p.2

theorem difference_cancels_headTxs : ∃ (rP rQ : RawIblt 6) (d : Iblt 6) (s t : TxSlice),
    ofTxmap headHashes 6 1 leftTxs = .ok rP ∧ ofTxmap headHashes 6 1 rightTxs = .ok rQ ∧
      Iblt.new headHashes (fun _ => true) rP rQ = .ok d ∧
      entrySlices headHashes 1 [headEntry (0, 0)] = [s] ∧
      entrySlices headHashes 1 [headEntry (3, 0)] = [t] ∧
      [TableOp.remove t, TableOp.insert s].foldlM (fun r op => op.apply headHashes r) (blank 6) =
        .ok d.riblt ∧
      ofTxmap headHashes 6 1 (headTxs [(1, 0), (0, 0)] (by decide)) = .ok rP := by
  obtain ⟨⟨rP, rQ, d, hP, hQ, hd, hops⟩, hperm, -⟩ := difference_cancels headHashes
    (show 0 < 6 by decide) (show (1 : U64) ≠ 0 by decide) leftTxs rightTxs leftTxs_agree
    (headTxs_sliceable _) (headTxs_sliceable _) fun _ => true
  obtain ⟨s, hs, -⟩ := entrySlices_headEntry 1 0
  obtain ⟨t, ht, -⟩ := entrySlices_headEntry 1 3
  refine ⟨rP, rQ, d, s, t, hP, hQ, hd, hs, ht, hops _ ?_, (hperm _ ?_).trans hP⟩
  · rw [leftTxs_sdiff, rightTxs_sdiff, hs, ht]
    exact List.Perm.swap _ _ _
  · exact List.Perm.swap _ _ _

/-- The difference for a sender that has one transaction more, of one slice. -/
theorem allTxs_difference : ∃ (theirs ours : RawIblt 6) (d : Iblt 6) (s : TxSlice),
    ofTxmap headHashes 6 1 allTxs = .ok theirs ∧ ofTxmap headHashes 6 1 rightTxs = .ok ours ∧
      Iblt.new headHashes (fun _ => true) theirs ours = .ok d ∧ Iblt.InStep headHashes d ∅ ∧
      d.riblt.table = put (hits headHashes) unit s ∧
      ∀ c, d.riblt.table c = if c.val < 3 then unit s else 0 := by
  obtain ⟨theirs, ours, d, htheirs, hours, hd, htable, hin⟩ := new_ofTxmap (H := headHashes)
    (show 0 < 6 by decide) (show (1 : U64) ≠ 0 by decide) allTxs_agree (headTxs_sliceable _)
    (headTxs_sliceable _) fun _ => true
  obtain ⟨s, hs, hhits⟩ := entrySlices_headEntry 1 0
  have hput : d.riblt.table = put (hits headHashes) unit s := by
    rw [htable, allTxs_sdiff, rightTxs_sdiff_allTxs, hs, entrySlices, List.flatMap_nil, total_nil,
      sub_zero, total_cons, total_nil, add_zero]
  have hpos : ∀ c : Fin 6, ([0, 1, 2].map fun i => (i + 3 * (0 : U8).toNat) % 6).count c.val =
      if c.val < 3 then 1 else 0 := by decide
  refine ⟨theirs, ours, d, s, htheirs, hours, hd, hin, hput, fun c => ?_⟩
  rw [hput, put, hhits c, hpos c]
  split_ifs
  · exact one_smul ℕ _
  · exact zero_smul ℕ _

/-- The difference of two tables in which every bucket holds a single slice. -/
theorem headTxs_difference : ∃ (theirs ours : RawIblt 6) (d : Iblt 6),
    ofTxmap headHashes 6 1 leftTxs = .ok theirs ∧ ofTxmap headHashes 6 1 rightTxs = .ok ours ∧
      Iblt.new headHashes (fun _ => true) theirs ours = .ok d ∧
      ∀ c, d.riblt.counts.get c = if c.val < 3 then 1 else -1 := by
  obtain ⟨theirs, ours, d, htheirs, hours, hd, htable, -⟩ := new_ofTxmap (H := headHashes)
    (show 0 < 6 by decide) (show (1 : U64) ≠ 0 by decide) leftTxs_agree (headTxs_sliceable _)
    (headTxs_sliceable _) fun _ => true
  obtain ⟨s, hs, hhits⟩ := entrySlices_headEntry 1 0
  obtain ⟨t, ht, hhits'⟩ := entrySlices_headEntry 1 3
  refine ⟨theirs, ours, d, htheirs, hours, hd, fun c => ?_⟩
  rw [leftTxs_sdiff, rightTxs_sdiff, hs, ht] at htable
  have hcount : d.riblt.counts.get c =
      hits headHashes s c • (1 : S16) + 0 - (hits headHashes t c • (1 : S16) + 0) :=
    congrArg Prod.fst (congrFun htable c)
  rw [hcount, hhits, hhits']
  clear hcount
  revert c
  decide

end BitcoinIblt
