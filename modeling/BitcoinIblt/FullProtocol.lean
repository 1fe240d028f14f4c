import BitcoinIblt.DecodeBlock
import BitcoinIblt.MixedDifference

/-!
# The full protocol

`iblt-test.cpp` from end to end: `generate_block` makes the two lists for a block, the table of the
block is made, `wire_encode` writes the message, and `decode_block` of a peer reads it. What is in
the table of the difference is decided by the candidates that the peer makes of the lists: the
slices of the block that are no candidates, and the candidates that are not in the block. As long
as no bucket mixes the two, the answer is exact, and so are the counters (`protocol_exact`).
-/

namespace BitcoinIblt

open Peeling RawIblt SignedTable Transition

/-! ## What the two sides do not share -/

/-- The transactions by their txids. -/
def txEntries (l : List Tx) : List (BitcoinTxid × Tx) := l.map fun t => (t.txid, t)

/-- The transactions of one set that are not in the other. -/
def only (s s' : UnorderedSet Tx) : List Tx := s.toList.filter fun t => t ∉ s'.toList

/-- The transactions of one set that are in the other. -/
def common (s s' : UnorderedSet Tx) : List Tx := s.toList.filter fun t => t ∈ s'.toList

theorem mem_only {s s' : UnorderedSet Tx} {t : Tx} : t ∈ only s s' ↔ t ∈ s ∧ t ∉ s' := by
  unfold only
  rw [List.mem_filter, decide_eq_true_eq]
  exact Iff.rfl

theorem only_append_common (s s' : UnorderedSet Tx) :
    (only s s' ++ common s s').Perm s.toList := by
  have h := List.filter_append_perm (fun t => decide (t ∉ s'.toList)) s.toList
  simpa [only, common] using h

theorem common_perm (s s' : UnorderedSet Tx) : (common s s').Perm (common s' s) := by
  refine (List.perm_ext_iff_of_nodup (s.nodup.filter _) (s'.nodup.filter _)).mpr fun t => ?_
  rw [List.mem_filter, List.mem_filter, decide_eq_true_eq, decide_eq_true_eq]
  exact and_comm

variable {H : Hashes} {size : ℕ} {seed : U64}

/-- What both sides have cancels out. -/
theorem total_sub_total (s s' : UnorderedSet Tx) :
    (total (hits H) unit (entrySlices H seed (txEntries s.toList)) -
      total (hits H) unit (entrySlices H seed (txEntries s'.toList)) : Fin size → Cell) =
    total (hits H) unit (entrySlices H seed (txEntries (only s s'))) -
      total (hits H) unit (entrySlices H seed (txEntries (only s' s))) := by
  have hsplit : ∀ s s' : UnorderedSet Tx,
      (total (hits H) unit (entrySlices H seed (txEntries s.toList)) : Fin size → Cell) =
        total (hits H) unit (entrySlices H seed (txEntries (only s s'))) +
          total (hits H) unit (entrySlices H seed (txEntries (common s s'))) := by
    intro s s'
    have hperm : (entrySlices H seed (txEntries (only s s' ++ common s s'))).Perm
        (entrySlices H seed (txEntries s.toList)) :=
      ((only_append_common s s').map _).flatMap_right _
    rw [← total_perm _ _ hperm, txEntries, List.map_append, entrySlices, List.flatMap_append,
      total_append]
    rfl
  have hcommon : (total (hits H) unit (entrySlices H seed (txEntries (common s s'))) :
      Fin size → Cell) = total (hits H) unit (entrySlices H seed (txEntries (common s' s))) :=
    total_perm _ _ (((common_perm s s').map _).flatMap_right _)
  rw [hsplit s s', hsplit s' s, hcommon]
  abel

/-! ## The start of the loop -/

/-- The difference of the tables of two sets, with a pool that holds the second. -/
theorem mixed_start {diff : Iblt size} {theirs ours : RawIblt size} {pool : IbltPool} {mp : Txmap}
    {block candidates : UnorderedSet Tx}
    (htheirs : theirs.table = total (hits H) unit (entrySlices H seed (txEntries block.toList)))
    (hours : ours.table = total (hits H) unit (entrySlices H seed (txEntries candidates.toList)))
    (htable : diff.riblt.table = theirs.table - ours.table) (hin : Iblt.InStep H diff ∅)
    (hpool : pool.Holds H seed mp.entries)
    (hcand : ∀ t ∈ candidates, (t.txid, t) ∈ mp.entries) :
    ∃ rest, Mixed H seed (txEntries (only block candidates)) (txEntries (only candidates block))
      rest (entrySlices H seed (txEntries (only block candidates)))
      (txEntries (only candidates block)) ⟨diff, pool.txByTxid48, OrdSet.empty⟩ := by
  have hsub : ∀ e ∈ txEntries (only candidates block), e ∈ mp.entries := by
    unfold txEntries
    rw [List.forall_mem_map]
    exact fun t ht => hcand t (mem_only.mp ht).1
  have hnodup : (txEntries (only candidates block)).Nodup :=
    (candidates.nodup.filter _).map fun t t' h => congrArg Prod.snd h
  obtain ⟨l, hl, hsublist⟩ := List.subperm_of_subset hnodup hsub
  obtain ⟨rest, hrest⟩ := hsublist.exists_perm_append
  have hpart := hrest.trans (hl.append_right rest)
  refine ⟨rest, hin, ?_, List.Perm.refl _, ?_, List.Subperm.refl _, Iff.rfl⟩
  · rw [htable, htheirs, hours, total_sub_total]
  · exact hpool.byId.trans (hpart.map _)

/-! ## The end of the loop -/

/-- The slices that the peer lacks are accepted just if none of its transactions wraps. -/
theorem checkSlices_noneWraps {lack : List (BitcoinTxid × Tx)} {st : PeelState size}
    (hempty : st.diff.empty = true) (hslices : st.slices.toList.Perm (entrySlices H seed lack))
    (hlack : ∀ e ∈ lack, Sliceable e.2.btx ∧ (txSlices H seed e).length ≤ 0xffff)
    (hids : (lack.map fun e => txid48 H seed e.1).Nodup) :
    ∃ b, checkSlices H st = .ok b ∧ (b = true ↔ NoneWraps H seed lack) := by
  have haccept := checkLoop_accepts (H := H) st.slices.toList
  rw [groups_iff_noneWraps (withIds_nodup hids) (withIds_slices hlack)
    ⟨st.slices.sorted, mem_iff_withIds hslices⟩, ← noneWraps_iff] at haccept
  obtain ⟨r, hr⟩ := checkLoop_returns (asmInv_start (H := H)) st.slices.toList
  unfold checkSlices
  rw [if_pos hempty, hr]
  rw [hr] at haccept
  cases r with
  | none =>
    refine ⟨false, rfl, iff_of_false Bool.false_ne_true fun h => ?_⟩
    obtain ⟨asm, hasm, -⟩ := haccept.mpr h
    cases hasm
  | some asm =>
    refine ⟨decide (asm.count = 0), rfl, ?_⟩
    rw [decide_eq_true_eq, ← haccept]
    refine ⟨fun hcount => ⟨asm, rfl, hcount⟩, ?_⟩
    rintro ⟨asm', hasm, hcount⟩
    cases hasm
    exact hcount

/-- What the pool has lost is the surplus, and the counters say so. -/
theorem Counted.exact {lack surplus rest : List (BitcoinTxid × Tx)} {pool : List (Txid48 × Tx)}
    {st : CountedState size} (h : Counted H pool st)
    (hstart : pool.Perm ((surplus ++ rest).map (poolEntry H seed)))
    (hpool : st.loop.txByTxid48.entries.Perm (rest.map (poolEntry H seed)))
    (hslices : st.loop.slices.toList.Perm (entrySlices H seed lack)) :
    st.counts = ⟨(entrySlices H seed lack).length, (entrySlices H seed surplus).length,
      surplus.length⟩ := by
  have hpoolSlices : ∀ {l : List (Txid48 × Tx)} {es : List (BitcoinTxid × Tx)},
      l.Perm (es.map (poolEntry H seed)) →
      (poolSlices H l).length = (entrySlices H seed es).length := by
    intro l es hperm
    rw [← poolSlices_map]
    exact (hperm.flatMap_right _).length_eq
  have hall := hpoolSlices hstart
  have hleft := hpoolSlices hpool
  have hlen := hstart.length_eq
  have hrest := hpool.length_eq
  have hrecovered := h.slicesRecovered
  have htxs := h.txsDiscarded
  have hdiscarded := h.slicesDiscarded
  rw [entrySlices, List.flatMap_append, List.length_append] at hall
  rw [List.length_map, List.length_append] at hlen
  rw [List.length_map] at hrest
  unfold entrySlices at *
  have htxs' : st.counts.txsDiscarded = surplus.length := by omega
  have hdiscarded' :
      st.counts.slicesDiscarded = (surplus.flatMap (txSlices H seed)).length := by omega
  rw [hslices.length_eq] at hrecovered
  rw [← htxs', ← hdiscarded', ← hrecovered]

/-- The loop that counts, on a difference that mixes nothing: it ends, the slices are accepted just
if everything could be peeled and nothing wraps, and then the counters say what there was. -/
theorem counted_ends {lack surplus rest : List (BitcoinTxid × Tx)} {diff : Iblt size}
    {pool : UnorderedMap Txid48 Tx}
    (h : Mixed H seed lack surplus rest (entrySlices H seed lack) surplus
      ⟨diff, pool, OrdSet.empty⟩)
    (hmix : Unmixed H size seed (entrySlices H seed lack) surplus) (hsize : 0 < size)
    (hsurplus : ∀ e ∈ surplus, Sliceable e.2.btx)
    (hlack : ∀ e ∈ lack, Sliceable e.2.btx ∧ (txSlices H seed e).length ≤ 0xffff)
    (hids : (lack.map fun e => txid48 H seed e.1).Nodup)
    (hcross : ∀ e ∈ surplus, ∀ f ∈ lack, txid48 H seed e.1 ≠ txid48 H seed f.1) :
    ∃ st b, countedLoop H ⟨⟨diff, pool, OrdSet.empty⟩, ⟨0, 0, 0⟩⟩ = .ok (true, st) ∧
      checkSlices H st.loop = .ok b ∧
      (b = true ↔ Peelable (itemHits H size seed) (itemsOf (entrySlices H seed lack) surplus) ∧
        NoneWraps H seed lack) ∧
      (b = true → st.counts =
        ⟨(entrySlices H seed lack).length, (entrySlices H seed surplus).length,
          surplus.length⟩) := by
  obtain ⟨st', hpeel, hend⟩ := h.ends hmix hsize hsurplus hids hcross
  obtain ⟨⟨ended, st⟩, hrun, hforget⟩ := countedLoop_returns
    ⟨⟨diff, pool, OrdSet.empty⟩, ⟨0, 0, 0⟩⟩ hpeel
  have hcounted := (counted_start diff pool).loop hrun
  obtain rfl : ended = true := by
    cases ended with
    | true => rfl
    | false => cases hforget
  obtain rfl : st.loop = st' := Option.some.inj hforget
  rcases hend with ⟨hempty, hslices, hpool, hyes⟩ | ⟨hempty, hno⟩
  · obtain ⟨b, hb, hiff⟩ := checkSlices_noneWraps hempty hslices hlack hids
    exact ⟨st, b, hrun, hb, hiff.trans ⟨fun h => ⟨hyes, h⟩, fun h => h.2⟩,
      fun _ => hcounted.exact h.pool hpool hslices⟩
  · have hfalse : checkSlices H st.loop = .ok false := by
      unfold checkSlices
      rw [if_neg hempty]
      rfl
    exact ⟨st, false, hrun, hfalse, iff_of_false Bool.false_ne_true fun h => hno h.1,
      fun h => absurd h Bool.false_ne_true⟩

/-! ## Two peers -/

/-- A peer with the mempool `M₁` has generated a block, and one with `M₂` is to decode it. -/
structure Exchange (H : Hashes) (seed : U64) (M₁ M₂ : Txmap) (block : UnorderedSet Tx) : Prop where
  seed_ne : seed ≠ 0
  sub : ∀ t ∈ block, (t.txid, t) ∈ M₁.entries
  ids₁ : M₁.DistinctIds H seed
  ids₂ : M₂.DistinctIds H seed
  keyed₁ : M₁.Keyed
  keyed₂ : M₂.Keyed
  hashed₁ : M₁.Hashed H
  hashed₂ : M₂.Hashed H
  sliceable₁ : ∀ e ∈ M₁.entries, Sliceable e.2.btx
  sliceable₂ : ∀ e ∈ M₂.entries, Sliceable e.2.btx
  short : ∀ t ∈ block, (txSlices H seed (t.txid, t)).length ≤ 0xffff

/-- The table of a set of transactions of a mempool. -/
theorem ofSet_txEntries (hsize : 0 < size) (hseed : seed ≠ 0) {mp : Txmap} (hhashed : mp.Hashed H)
    (hsl : ∀ e ∈ mp.entries, Sliceable e.2.btx) {s : UnorderedSet Tx}
    (hs : ∀ t ∈ s, (t.txid, t) ∈ mp.entries) :
    ∃ r, ofSet H size seed s.toList = .ok r ∧
      r.table = total (hits H) unit (entrySlices H seed (txEntries s.toList)) := by
  obtain ⟨r, hr, htable⟩ := ofSet_ok (H := H) hsize hseed fun t ht => hsl (t.txid, t) (hs t ht)
  have hkeys : (s.toList.map fun t => (t.btx.txid H, t)) = txEntries s.toList :=
    List.map_congr_left fun t ht => Prod.ext (hhashed (t.txid, t) (hs t ht)) rfl
  exact ⟨r, hr, hkeys ▸ htable⟩

/-- The order in which the lists are iterated over does not change the candidates. -/
theorem decodeCandidates_same {minFeePerByte : U64} {mp : Txmap} (hseed : seed ≠ 0)
    (hids : mp.DistinctIds H seed) (hkeyed : mp.Keyed) {added added' removed removed' : TxbitsSet}
    (ha : added'.Same added) (hr : removed'.Same removed) {candidates : UnorderedSet Tx}
    (h : decodeCandidates H seed minFeePerByte added removed mp = .ok candidates) :
    ∃ candidates', decodeCandidates H seed minFeePerByte added' removed' mp = .ok candidates' ∧
      candidates'.toList.Perm candidates.toList := by
  obtain ⟨c, hc, hmem⟩ := decodeCandidates_ok hseed minFeePerByte hids hkeyed added removed
  obtain ⟨c', hc', hmem'⟩ := decodeCandidates_ok hseed minFeePerByte hids hkeyed added' removed'
  obtain rfl : c = candidates := Except.ok.inj (hc.symm.trans h)
  refine ⟨c', hc', (List.perm_ext_iff_of_nodup c'.nodup c.nodup).mpr fun t => ?_⟩
  rw [← UnorderedSet.mem_def, ← UnorderedSet.mem_def, hmem, hmem', ha.hit_iff, hr.hit_iff]

variable (H size seed) in
/-- What the peer lacks and what it has too much can be told apart: no bucket mixes the two, and no
ids clash. -/
structure Separate (block candidates : UnorderedSet Tx) : Prop where
  unmixed : Unmixed H size seed (entrySlices H seed (txEntries (only block candidates)))
    (txEntries (only candidates block))
  cross : ∀ t ∈ only candidates block, ∀ t' ∈ only block candidates,
    txid48 H seed t.txid ≠ txid48 H seed t'.txid

variable (H size seed) in
/-- The two together can be peeled, and nothing that the peer lacks wraps around. -/
def Recoverable (block candidates : UnorderedSet Tx) : Prop :=
  Peelable (itemHits H size seed)
      (itemsOf (entrySlices H seed (txEntries (only block candidates)))
        (txEntries (only candidates block))) ∧
    NoneWraps H seed (txEntries (only block candidates))

variable (H seed) in
/-- What there is to count: the slices lacking, those too many and the transactions too many. -/
def recoveredCounts (block candidates : UnorderedSet Tx) : DecodeCounts :=
  ⟨(entrySlices H seed (txEntries (only block candidates))).length,
    (entrySlices H seed (txEntries (only candidates block))).length, (only candidates block).length⟩

section Receiver

variable {M₁ M₂ : Txmap} {block : UnorderedSet Tx} (h : Exchange H seed M₁ M₂ block)

include h

theorem Exchange.lack (candidates : UnorderedSet Tx) :
    ∀ e ∈ txEntries (only block candidates),
      Sliceable e.2.btx ∧ (txSlices H seed e).length ≤ 0xffff := by
  unfold txEntries
  rw [List.forall_mem_map]
  intro t ht
  have hb := (mem_only.mp ht).1
  exact ⟨h.sliceable₁ (t.txid, t) (h.sub t hb), h.short t hb⟩

/-- The ids of a block are those of the mempool that it comes from. -/
theorem Exchange.nodup (candidates : UnorderedSet Tx) :
    ((txEntries (only block candidates)).map fun e => txid48 H seed e.1).Nodup := by
  have hsub : (txEntries (only block candidates)).Subperm M₁.entries := by
    refine List.subperm_of_subset
      ((block.nodup.filter _).map fun t t' heq => congrArg Prod.snd heq) fun e he => ?_
    obtain ⟨t, ht, rfl⟩ := List.mem_map.mp he
    exact h.sub t (mem_only.mp ht).1
  obtain ⟨l, hl, hsublist⟩ := hsub
  exact (hl.map _).nodup_iff.mp (h.ids₁.sublist (hsublist.map _))

/-- **The receiver.** It returns for every table of the block with buckets, and if nothing is mixed
it finds out all there is to find out. -/
theorem Exchange.decodeMessage_exact (junk : BucketType → Bool) {minFeePerByte : U64}
    {added removed : TxbitsSet} {candidates : UnorderedSet Tx}
    (hcand : decodeCandidates H seed minFeePerByte added removed M₂ = .ok candidates)
    (hsize : 0 < size) {theirs : RawIblt size}
    (htheirs : ofSet H size seed block.toList = .ok theirs) {m : WireMessage} {coinbase : BitcoinTx}
    (hm : m.Same ⟨coinbase, minFeePerByte, seed, added, removed, size, theirs⟩) :
    ∃ b counts, decodeMessage H junk M₂ m = .ok (b, counts) ∧
      (Separate H size seed block candidates →
        (b = true ↔ Recoverable H size seed block candidates) ∧
        (b = true → counts = recoveredCounts H seed block candidates)) := by
  obtain ⟨cb, fee, sd, a, r, n, iblt⟩ := m
  obtain ⟨hcb, hfee, hsd, ha, hr, htab⟩ := hm
  dsimp only at hcb hfee hsd ha hr htab
  subst hcb hfee hsd
  cases htab
  obtain ⟨c, hc, hperm⟩ := decodeCandidates_same h.seed_ne h.ids₂ h.keyed₂ ha hr hcand
  obtain ⟨c₀, hc₀, hmem⟩ :=
    decodeCandidates_ok h.seed_ne fee h.ids₂ h.keyed₂ added removed
  obtain rfl : c₀ = candidates := Except.ok.inj (hc₀.symm.trans hcand)
  have hsub : ∀ t ∈ c₀, (t.txid, t) ∈ M₂.entries := fun t ht => ((hmem t).mp ht).1
  obtain ⟨pool, hp, hpool⟩ := IbltPool.new_ok (H := H) h.seed_ne h.ids₂
  obtain ⟨theirs', htheirs', htable₁⟩ :=
    ofSet_txEntries (H := H) hsize h.seed_ne h.hashed₁ h.sliceable₁ h.sub
  obtain rfl : theirs' = theirs := Except.ok.inj (htheirs'.symm.trans htheirs)
  obtain ⟨ours, hours, htable₂⟩ :=
    ofSet_txEntries (H := H) hsize h.seed_ne h.hashed₂ h.sliceable₂ hsub
  rw [← ofSet_perm hsize h.seed_ne hperm fun t ht => h.sliceable₂ (t.txid, t) (hsub t ht)] at hours
  obtain ⟨diff, hd, htable, hin⟩ := Iblt.new_ok H junk theirs' ours
  obtain ⟨rest, hstart⟩ := mixed_start htable₁ htable₂ htable hin hpool hsub
  have hbegin : PeelStart H junk theirs' ours sd M₂ ⟨diff, pool.txByTxid48, OrdSet.empty⟩ :=
    ⟨diff, pool, hd, hp, rfl⟩
  obtain ⟨result, hpeel⟩ := hbegin.returns h.ids₂ h.sliceable₂
  obtain ⟨⟨ended, st⟩, hrun, -⟩ := countedLoop_returns
    ⟨⟨diff, pool.txByTxid48, OrdSet.empty⟩, ⟨0, 0, 0⟩⟩ hpeel
  obtain ⟨b, hb⟩ := checkSlices_returns H st.loop
  refine ⟨ended && b, st.counts, decodeMessage_ok hp hc hours hd hrun hb, fun hsep => ?_⟩
  have hcross' : ∀ e ∈ txEntries (only c₀ block), ∀ f ∈ txEntries (only block c₀),
      txid48 H sd e.1 ≠ txid48 H sd f.1 := by
    unfold txEntries
    simp only [List.forall_mem_map]
    exact hsep.cross
  have hsurplus : ∀ e ∈ txEntries (only c₀ block), Sliceable e.2.btx := by
    unfold txEntries
    rw [List.forall_mem_map]
    exact fun t ht => h.sliceable₂ (t.txid, t) (hsub t (mem_only.mp ht).1)
  obtain ⟨st', b', hrun', hb', hiff, hcounts⟩ :=
    counted_ends hstart hsep.unmixed hsize hsurplus (h.lack c₀) (h.nodup c₀) hcross'
  obtain ⟨rfl, rfl⟩ : true = ended ∧ st' = st :=
    Prod.ext_iff.mp (Except.ok.inj (hrun'.symm.trans hrun))
  obtain rfl : b' = b := Except.ok.inj (hb'.symm.trans hb)
  rw [Bool.true_and]
  have hlen : (txEntries (only c₀ block)).length = (only c₀ block).length := List.length_map _
  exact ⟨hiff, fun hyes => by rw [hcounts hyes, hlen, recoveredCounts]⟩

end Receiver

/-- **The full protocol.** A peer generates a block of transactions that it has and sends the table
with some number of buckets. The other peer reads the message and returns, whatever the lists make
it take for candidates. If no bucket mixes what it lacks with what it has too much, it accepts the
message exactly if the two together can be peeled and nothing that it lacks wraps around, and then
the counters are what it lacked and what it had too much. -/
theorem protocol_exact (H : Hashes) {A : Allocator} (hA : A.Succeeds) (past : U8)
    (junk : BucketType → Bool) {seed : U64} (minFeePerByte : U64) (coinbase : BitcoinTx)
    {M₁ M₂ : Txmap} {block : UnorderedSet Tx} (h : Exchange H seed M₁ M₂ block) :
    ∃ r candidates, generateBlock H seed minFeePerByte M₁ block = .ok r ∧
      decodeCandidates H seed minFeePerByte r.added r.removed M₂ = .ok candidates ∧
      ∀ size, 1 ≤ size → size ≤ maxBuckets → ∃ iblt enc b counts,
        ofSet H size seed block.toList = .ok iblt ∧
        wireEncode ⟨coinbase, minFeePerByte, seed, r.added, r.removed, size, iblt⟩ = .ok enc ∧
        decodeBlock H A past junk M₂ enc = .ok (b, counts) ∧
        (Separate H size seed block candidates →
          (b = true ↔ Recoverable H size seed block candidates) ∧
          (b = true → counts = recoveredCounts H seed block candidates)) := by
  obtain ⟨pool, r, hpool, hgen, ha, hr⟩ :=
    generateBlock_ok h.seed_ne minFeePerByte block h.ids₁ h.keyed₁ h.sub
  obtain ⟨candidates, hcand, -⟩ :=
    decodeCandidates_ok h.seed_ne minFeePerByte h.ids₂ h.keyed₂ r.added r.removed
  refine ⟨r, candidates, hgen, hcand, fun size hone hmax => ?_⟩
  obtain ⟨iblt, hiblt, -⟩ := ofSet_txEntries (H := H) hone h.seed_ne h.hashed₁ h.sliceable₁ h.sub
  have hsendable : WireMessage.Sendable
      ⟨coinbase, minFeePerByte, seed, r.added, r.removed, size, iblt⟩ :=
    ⟨ha.wellFormed hpool fun e he => he, hr.wellFormed hpool fun e he => he, hone, hmax⟩
  obtain ⟨added, removed, henc⟩ := WireMessage.wireEncode_eq _ hsendable
  obtain ⟨m', hdec, hsame⟩ := WireMessage.decode_whole hA past TxbitsSet.empty TxbitsSet.empty
    hsendable added removed
  obtain ⟨b, counts, hmsg, hexact⟩ := h.decodeMessage_exact junk hcand hone hiblt hsame
  refine ⟨iblt, _, b, counts, hiblt, henc, ?_, hexact⟩
  rw [decodeBlock, hdec, ok_bind]
  exact hmsg

/-! ## One transaction lacking and one too many -/

theorem headTx_injective {v w : U8} (h : headTx v 0 = headTx w 0) : v = w :=
  headTxid_injective (congrArg Tx.txid h)

/-- The transactions of `leftTxs`, as a block. -/
def leftBlock : UnorderedSet Tx where
  toList := [headTx 0 0, headTx 1 0]
  nodup := by
    refine List.nodup_cons.mpr ⟨fun h => ?_, List.nodup_singleton _⟩
    exact absurd (headTx_injective (List.mem_singleton.mp h)) (by decide)

theorem mem_leftBlock {t : Tx} : t ∈ leftBlock ↔ t = headTx 0 0 ∨ t = headTx 1 0 :=
  List.mem_pair

/-- They are generated as a block, for a peer that has one of them and another. -/
theorem exchange_leftTxs : Exchange headHashes 1 leftTxs rightTxs leftBlock where
  seed_ne := by decide
  sub t ht := by
    rcases mem_leftBlock.mp ht with rfl | rfl
    · exact List.mem_cons_self
    · exact List.mem_cons_of_mem _ List.mem_cons_self
  ids₁ := headTxs_distinctIds _ 1
  ids₂ := headTxs_distinctIds _ 1
  keyed₁ := headTxs_keyed _
  keyed₂ := headTxs_keyed _
  hashed₁ := headTxs_hashed _
  hashed₂ := headTxs_hashed _
  sliceable₁ := headTxs_sliceable _
  sliceable₂ := headTxs_sliceable _
  short t ht := by
    rcases mem_leftBlock.mp ht with rfl | rfl
    · exact slicesOf_headBtx_le headHashes 0 0 _
    · exact slicesOf_headBtx_le headHashes 1 0 _

/-- Nothing is listed as removed, so that all that the peer has are candidates. -/
theorem mem_candidates_leftTxs {r : GeneratedBlock} {candidates : UnorderedSet Tx}
    (hgen : generateBlock headHashes 1 0 leftTxs leftBlock = .ok r)
    (hcand : decodeCandidates headHashes 1 0 r.added r.removed rightTxs = .ok candidates)
    (t : Tx) : t ∈ candidates ↔ t = headTx 1 0 ∨ t = headTx 3 0 := by
  have hx := exchange_leftTxs
  obtain ⟨pool, r', -, hgen', -, hremoved⟩ :=
    generateBlock_ok hx.seed_ne 0 leftBlock hx.ids₁ hx.keyed₁ hx.sub
  obtain rfl : r' = r := Except.ok.inj (hgen'.symm.trans hgen)
  obtain ⟨c, hc, hmem⟩ := decodeCandidates_ok hx.seed_ne 0 hx.ids₂ hx.keyed₂ r'.added r'.removed
  obtain rfl : c = candidates := Except.ok.inj (hc.symm.trans hcand)
  have hnone : ¬ Hit headHashes 1 r'.removed (t.txid, t) := by
    rintro ⟨i, v, hv, -⟩
    obtain ⟨-, e, he, ⟨-, hout⟩, -⟩ := (hremoved i v).mp hv
    obtain ⟨q, hq, rfl⟩ := mem_headTxs.mp he
    rcases List.mem_pair.mp hq with rfl | rfl
    · exact hout List.mem_cons_self
    · exact hout (List.mem_cons_of_mem _ List.mem_cons_self)
  rw [hmem, and_iff_left (Or.inl hnone)]
  constructor
  · intro h
    obtain ⟨q, hq, heq⟩ := mem_headTxs.mp h
    have ht : headTx q.1 q.2 = t := congrArg Prod.snd heq
    rcases List.mem_pair.mp hq with rfl | rfl
    · exact Or.inl ht.symm
    · exact Or.inr ht.symm
  · rintro (rfl | rfl)
    · exact List.mem_cons_self
    · exact List.mem_cons_of_mem _ List.mem_cons_self

section LeftBlock

variable {candidates : UnorderedSet Tx}
  (hmem : ∀ t, t ∈ candidates ↔ t = headTx 1 0 ∨ t = headTx 3 0)

include hmem

theorem only_leftBlock : txEntries (only leftBlock candidates) = [headEntry (0, 0)] ∧
    txEntries (only candidates leftBlock) = [headEntry (3, 0)] := by
  have hne : ∀ v w : U8, v ≠ w → headTx v 0 ≠ headTx w 0 := fun v w h e => h (headTx_injective e)
  have hnodup : (only leftBlock candidates).Nodup := leftBlock.nodup.filter _
  have hnodup' : (only candidates leftBlock).Nodup := candidates.nodup.filter _
  have hlack : (only leftBlock candidates).Perm [headTx 0 0] := by
    refine (List.perm_ext_iff_of_nodup hnodup (List.nodup_singleton _)).mpr fun t => ?_
    rw [mem_only, mem_leftBlock, hmem, List.mem_singleton]
    constructor
    · rintro ⟨rfl | rfl, hout⟩
      · rfl
      · exact absurd (Or.inl rfl) hout
    · rintro rfl
      exact ⟨Or.inl rfl, not_or.mpr ⟨hne 0 1 (by decide), hne 0 3 (by decide)⟩⟩
  have hsurplus : (only candidates leftBlock).Perm [headTx 3 0] := by
    refine (List.perm_ext_iff_of_nodup hnodup' (List.nodup_singleton _)).mpr fun t => ?_
    rw [mem_only, mem_leftBlock, hmem, List.mem_singleton]
    constructor
    · rintro ⟨rfl | rfl, hout⟩
      · exact absurd (Or.inr rfl) hout
      · rfl
    · rintro rfl
      exact ⟨Or.inr rfl, not_or.mpr ⟨hne 3 0 (by decide), hne 3 1 (by decide)⟩⟩
  exact ⟨congrArg txEntries (List.perm_singleton.mp hlack),
    congrArg txEntries (List.perm_singleton.mp hsurplus)⟩

theorem separate_leftBlock : Separate headHashes 6 1 leftBlock candidates := by
  obtain ⟨hlack, hsurplus⟩ := only_leftBlock hmem
  refine ⟨?_, fun t ht t' ht' => ?_⟩
  · rw [hlack, hsurplus]
    exact headEntry_unmixed
  · have h : (t.txid, t) ∈ txEntries (only candidates leftBlock) := List.mem_map_of_mem ht
    have h' : (t'.txid, t') ∈ txEntries (only leftBlock candidates) := List.mem_map_of_mem ht'
    rw [hsurplus, List.mem_singleton] at h
    rw [hlack, List.mem_singleton] at h'
    have hid : t.txid = headTxid 3 := congrArg Prod.fst h
    have hid' : t'.txid = headTxid 0 := congrArg Prod.fst h'
    rw [hid, hid']
    decide

theorem recoverable_leftBlock : Recoverable headHashes 6 1 leftBlock candidates := by
  obtain ⟨hlack, hsurplus⟩ := only_leftBlock hmem
  unfold Recoverable
  rw [hlack, hsurplus]
  exact ⟨headEntry_peelable, noneWraps_headEntry 1 (by decide)⟩

theorem recoveredCounts_leftBlock :
    recoveredCounts headHashes 1 leftBlock candidates = ⟨1, 1, 1⟩ := by
  obtain ⟨hlack, hsurplus⟩ := only_leftBlock hmem
  obtain ⟨s, hs, -⟩ := entrySlices_headEntry 1 0
  obtain ⟨t, ht, -⟩ := entrySlices_headEntry 1 3
  have hlen : (txEntries (only candidates leftBlock)).length = (only candidates leftBlock).length :=
    List.length_map _
  unfold recoveredCounts
  rw [← hlen, hlack, hsurplus, hs, ht]
  rfl

end LeftBlock

/-- The other peer accepts the block, with one slice recovered and one removed. -/
theorem protocol_exact_leftTxs : ∃ r iblt enc,
    generateBlock headHashes 1 0 leftTxs leftBlock = .ok r ∧
      ofSet headHashes 6 1 leftBlock.toList = .ok iblt ∧
      wireEncode ⟨BitcoinTx.blank, 0, 1, r.added, r.removed, 6, iblt⟩ = .ok enc ∧
      decodeBlock headHashes (fun _ _ => true) 0xFF (fun _ => true) rightTxs enc =
        .ok (true, ⟨1, 1, 1⟩) := by
  obtain ⟨r, candidates, hgen, hcand, hall⟩ := protocol_exact headHashes (A := fun _ _ => true)
    (fun _ _ => rfl) 0xFF (fun _ => true) 0 BitcoinTx.blank exchange_leftTxs
  obtain ⟨iblt, enc, b, counts, hiblt, henc, hdec, hexact⟩ := hall 6 (by decide) (by decide)
  have hmem := mem_candidates_leftTxs hgen hcand
  obtain ⟨hiff, hcounts⟩ := hexact (separate_leftBlock hmem)
  have hb : b = true := hiff.mpr (recoverable_leftBlock hmem)
  refine ⟨r, iblt, enc, hgen, hiblt, henc, ?_⟩
  rw [hdec, hcounts hb, hb, recoveredCounts_leftBlock hmem]

end BitcoinIblt
