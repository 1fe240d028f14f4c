import BitcoinIblt.RecoverBlock

/-!
# Conservation through peeling

Whatever the sender's table holds, at every head of the peeling loop the difference table is that
table less the slices of the transactions left in the pool and less the slices collected so far
(`Conserved`). The loop stops with an empty difference only if the sender's table is the table of
those slices (`peeling_conserves`).
-/

namespace BitcoinIblt

open SignedTable RawIblt Transition

variable (H : Hashes) {size : ℕ}

/-- The slices of the transactions of the pool under their short ids. -/
def poolSlices (entries : List (Txid48 × Tx)) : List TxSlice :=
  entries.flatMap fun p => slicesOf H p.2.btx p.1

theorem poolSlices_map (seed : U64) (entries : List (BitcoinTxid × Tx)) :
    poolSlices H (entries.map (poolEntry H seed)) = entrySlices H seed entries := by
  rw [poolSlices, List.flatMap_map]
  rfl

/-- The invariant of the peeling loop. -/
structure Conserved (theirs : RawIblt size) (st : PeelState size) : Prop where
  inStep : Iblt.InStep H st.diff ∅
  sliceable : ∀ p ∈ st.txByTxid48.entries, Sliceable p.2.btx
  table : st.diff.riblt.table = theirs.table -
    total (hits H) unit (poolSlices H st.txByTxid48.entries) -
    total (hits H) unit st.slices.toList

variable {H}

/-! ## One turn -/

section Turn

variable (hsize : 0 < size)

include hsize

/-- Erasing a transaction of the pool and putting its slices back. -/
theorem removeOurTx_turn {st : PeelState size} {id : Txid48} {tx : Tx}
    (hin : Iblt.InStep H st.diff ∅) (hsl : Sliceable tx.btx)
    (hfind : st.txByTxid48.find id = some tx) :
    ∃ diff, st.diff.removeOurTx H tx.btx id = .ok (diff, (slicesOf H tx.btx id).length) ∧
      Iblt.InStep H diff ∅ ∧
      diff.riblt.table = st.diff.riblt.table + total (hits H) unit (slicesOf H tx.btx id) ∧
      total (hits H) unit (poolSlices H st.txByTxid48.entries) =
        (total (hits H) unit (slicesOf H tx.btx id) +
          total (hits H) unit (poolSlices H (st.txByTxid48.erase id).1.entries) :
            Fin size → Cell) := by
  obtain ⟨diff, hd, htable, hin'⟩ := hin.removeOurTx hsize id hsl
  rw [Finset.filter_empty] at hin'
  have hperm := UnorderedMap.erase_perm (UnorderedMap.find_eq_some_iff.mp hfind)
  refine ⟨diff, hd, hin', htable, ?_⟩
  have hslices := hperm.flatMap_right fun p => slicesOf H p.2.btx p.1
  rw [poolSlices, total_perm _ _ hslices, List.flatMap_cons, total_append]
  rfl

/-- Collecting a slice of theirs and taking it out. -/
theorem removeTheirSlice_turn {d : Iblt size} {s : TxSlice} (hin : Iblt.InStep H d ∅) :
    ∃ diff, d.removeTheirSlice H s = .ok diff ∧ Iblt.InStep H diff ∅ ∧
      diff.riblt.table = d.riblt.table - put (hits H) unit s := by
  obtain ⟨diff, hd, htable, hin'⟩ := hin.removeTheirSlice hsize s
  rw [Finset.filter_empty] at hin'
  exact ⟨diff, hd, hin', htable⟩

/-- A turn keeps the invariant, whatever slice it is about. -/
theorem Conserved.peelBody {theirs : RawIblt size} {st st' : PeelState size}
    (h : Conserved H theirs st) {t : BucketType} {s : TxSlice}
    (hbody : peelBody H st t s = .ok (.again st')) : Conserved H theirs st' := by
  rcases peelBody_again hbody with ⟨-, tx, diff, n, hf, hr, rfl⟩ | ⟨-, diff, hins, hr, rfl⟩
  · have hmem := UnorderedMap.find_eq_some_iff.mp hf
    obtain ⟨diff', hd', hin', htable, hpool⟩ :=
      removeOurTx_turn hsize h.inStep (h.sliceable _ hmem) hf
    rw [hr] at hd'
    cases hd'
    refine ⟨hin', fun p hp => h.sliceable p (UnorderedMap.mem_erase.mp hp).1, ?_⟩
    rw [htable, h.table, hpool]
    abel
  · obtain ⟨diff', hd', hin', htable⟩ := removeTheirSlice_turn hsize (s := s) h.inStep
    rw [hr] at hd'
    cases hd'
    refine ⟨hin', h.sliceable, ?_⟩
    rw [htable, h.table, total_perm _ _ (OrdSet.insert_perm hins), total_cons]
    abel

theorem Conserved.peelTurn {theirs : RawIblt size} {st st' : PeelState size}
    (h : Conserved H theirs st) (hturn : PeelTurn H st st') : Conserved H theirs st' := by
  obtain ⟨t, s, -, hbody⟩ := peelStep_again hturn
  exact h.peelBody hsize hbody

end Turn

/-! ## The start -/

/-- A table that has been built shows that the seed and the transactions pass the assertions. -/
theorem of_insertTx_ok {seed : U64} {r r' : RawIblt size} {txid : BitcoinTxid} {btx : BitcoinTx}
    (h : r.insertTx H seed txid btx = .ok r') : seed ≠ 0 ∧ Sliceable btx ∧ 0 < size := by
  rw [insertTx, Txid48.new] at h
  split_ifs at h with hseed
  · cases h
  · rw [ok_bind] at h
    obtain ⟨v, hs, h⟩ := of_bind_ok h
    have hsl := sliceable_of_sliceTx _ hs
    refine ⟨hseed, hsl, Nat.pos_of_ne_zero fun h₀ => ?_⟩
    have hv : v = slicesOf H btx (txid48 H seed txid) := by rw [slicesOf, hs]; rfl
    cases v with
    | nil => exact slicesOf_ne_nil _ hsl hv.symm
    | cons s v =>
      rw [List.foldlM_cons, RawIblt.insert, frobBuckets, selectBuckets, dif_neg (by omega)] at h
      cases h

theorem of_ofTxmap_ok {seed : U64} {m : Txmap} {r : RawIblt size}
    (h : ofTxmap H size seed m = .ok r) :
    ∀ e ∈ m.entries, seed ≠ 0 ∧ Sliceable e.2.btx ∧ 0 < size := by
  unfold ofTxmap at h
  generalize blank size = r₀ at h
  generalize m.entries = l at h ⊢
  induction l generalizing r₀ with
  | nil => exact fun e he => absurd he List.not_mem_nil
  | cons e l ih =>
    rw [List.foldlM_cons] at h
    obtain ⟨r₁, hi, h⟩ := of_bind_ok h
    exact List.forall_mem_cons.mpr ⟨of_insertTx_ok hi, ih r₁ h⟩

theorem new_holds {seed : U64} {m : Txmap} {pool : IbltPool} (hids : m.DistinctIds H seed)
    (h : IbltPool.new H seed m = .ok pool) : pool.Holds H seed m.entries := by
  by_cases hseed : seed = 0
  · -- only an empty mempool passes the assertion on the seed
    unfold IbltPool.new at h
    cases hm : m.entries with
    | nil =>
      rw [hm] at h
      cases h
      exact ⟨List.Perm.refl _, TxTree.valid_new _, List.Perm.refl _⟩
    | cons e l =>
      rw [hm, List.foldlM_cons, Txid48.new, if_pos hseed] at h
      cases h
  · obtain ⟨pool', hp, hh⟩ := IbltPool.new_ok (H := H) hseed hids
    rw [h] at hp
    cases hp
    exact hh

theorem Conserved.start {junk : BucketType → Bool} {theirs ours : RawIblt size} {seed : U64}
    {m : Txmap} (hids : m.DistinctIds H seed) (hours : ofTxmap H size seed m = .ok ours)
    {st : PeelState size} (h : PeelStart H junk theirs ours seed m st) : Conserved H theirs st := by
  obtain ⟨diff, pool, hd, hp, rfl⟩ := h
  obtain ⟨diff', hd', htable, hin⟩ := Iblt.new_ok H junk theirs ours
  rw [hd] at hd'
  cases hd'
  have hh := new_holds hids hp
  have hpre := of_ofTxmap_ok hours
  have hpool : total (hits H) unit (poolSlices H pool.txByTxid48.entries) = ours.table := by
    rw [poolSlices, total_perm _ _ (hh.byId.flatMap_right _)]
    show total (hits H) unit (poolSlices H (m.entries.map (poolEntry H seed))) = _
    rw [poolSlices_map]
    rcases m.entries.eq_nil_or_concat with hnil | ⟨l, e, hl⟩
    · unfold ofTxmap at hours
      rw [hnil] at hours
      cases hours
      rw [hnil, table_blank]
      rfl
    · obtain ⟨hseed, -, hsize⟩ := hpre e (by rw [hl]; simp)
      obtain ⟨r, hr, ht⟩ := ofTxmap_ok (H := H) hsize hseed fun e he => (hpre e he).2.1
      rw [hours] at hr
      cases hr
      exact ht.symm
  refine ⟨hin, fun p hp => ?_, ?_⟩
  · obtain ⟨e, he, rfl⟩ := List.mem_map.mp (hh.byId.mem_iff.mp hp)
    exact (hpre e he).2.1
  · rw [htable, hpool]
    show _ = _ - total (hits H) unit []
    rw [total_nil, sub_zero]

/-! ## The whole run -/

/-- A turn of the loop picks a bucket that holds a single slice. -/
theorem PeelTurn.pick {st st' : PeelState size} (h : Iblt.InStep H st.diff ∅)
    (hturn : PeelTurn H st st') : PickTurn H st st' := by
  obtain ⟨t, s, hnext, hbody⟩ := peelStep_again hturn
  rcases h.sync.next with ⟨hn, -⟩ | ⟨n, hne, -, hn, -⟩
  · rw [hn] at hnext
    cases hnext
  · rw [hn] at hnext
    cases hnext
    exact ⟨n, hne, hbody⟩

section Run

variable {Inv : PeelState size → Prop} (hin : ∀ st, Inv st → Iblt.InStep H st.diff ∅)
  (hturn : ∀ st, Inv st → ∀ n, st.diff.typeAt n ≠ .NEITHER →
    ∃ st', peelBody H st (st.diff.typeAt n) (st.diff.riblt.buckets.get n) = .ok (.again st') ∧
      Inv st')

include hturn

theorem inv_of_pick {st st' : PeelState size} (h : Inv st) (hpick : PickTurn H st st') :
    Inv st' := by
  obtain ⟨n, hne, hbody⟩ := hpick
  obtain ⟨st'', hbody', hinv⟩ := hturn st h n hne
  rw [hbody] at hbody'
  cases hbody'
  exact hinv

include hin

theorem inv_of_heads {st₀ st : PeelState size} (h₀ : Inv st₀)
    (hst : Reachable (· = st₀) (PeelTurn H) st) : Inv st :=
  hst.invariant Inv (fun _ h => by rw [h]; exact h₀)
    fun st _ h hpeel => inv_of_pick hturn h (hpeel.pick (hin st h))

/-- If every single slice can be picked, the loop ends when none is left. -/
theorem peel_ends_stuck {st₀ : PeelState size} (h₀ : Inv st₀) :
    ∃ st, peel H st₀ = .ok (some st) ∧ Inv st ∧ ∀ n, st.diff.typeAt n = .NEITHER := by
  obtain ⟨st, hpeel⟩ := peel_ends (H := H) fun st hst => by
    have hinv := inv_of_heads hin hturn h₀ hst
    rcases (hin st hinv).sync.next with ⟨hn, -⟩ | ⟨n, hne, -, hn, -⟩
    · exact Or.inl (by rw [peelStep, hn]; rfl)
    · obtain ⟨st', hbody, -⟩ := hturn st hinv n hne
      exact Or.inr ⟨st', by rw [peelStep, hn]; exact hbody⟩
  obtain ⟨hreach, hnone⟩ := peel_some hpeel
  have hinv := inv_of_heads hin hturn h₀ hreach
  exact ⟨st, hpeel, hinv, (hin st hinv).all_neither hnone⟩

end Run

/-- Without buckets `next` returns `NEITHER`. -/
theorem no_turn (hsize : ¬ 0 < size) {st st' : PeelState size} (h : Iblt.InStep H st.diff ∅) :
    ¬ PeelTurn H st st' := by
  intro hturn
  obtain ⟨n, -⟩ := hturn.pick h
  exact absurd n.isLt (by omega)

theorem Conserved.of_reachable {junk : BucketType → Bool} {theirs ours : RawIblt size} {seed : U64}
    {m : Txmap} (hids : m.DistinctIds H seed) (hours : ofTxmap H size seed m = .ok ours)
    {st : PeelState size} (h : Reachable (PeelStart H junk theirs ours seed m) (PeelTurn H) st) :
    Conserved H theirs st := by
  refine h.invariant (Conserved H theirs) (fun st hst => Conserved.start hids hours hst)
    fun st st' hst hturn => ?_
  by_cases hsize : 0 < size
  · exact hst.peelTurn hsize hturn
  · exact absurd hturn (no_turn hsize hst.inStep)

/-- A table without buckets was built from no transactions, so nothing is left and collected. -/
theorem nothing_of_no_buckets (hsize : ¬ 0 < size) {junk : BucketType → Bool}
    {theirs ours : RawIblt size} {seed : U64} {m : Txmap} (hids : m.DistinctIds H seed)
    (hours : ofTxmap H size seed m = .ok ours) {st : PeelState size}
    (h : Reachable (PeelStart H junk theirs ours seed m) (PeelTurn H) st) :
    poolSlices H st.txByTxid48.entries ++ st.slices.toList = [] := by
  cases h with
  | start hst =>
    obtain ⟨diff, pool, -, hp, rfl⟩ := hst
    have hnil : m.entries = [] := List.eq_nil_iff_forall_not_mem.mpr fun e he =>
      hsize (of_ofTxmap_ok hours e he).2.2
    have hperm := (new_holds hids hp).byId
    rw [hnil] at hperm
    show poolSlices H pool.txByTxid48.entries ++ [] = []
    rw [hperm.eq_nil]
    rfl
  | next hs hturn =>
    exact absurd hturn (no_turn hsize (Conserved.of_reachable hids hours hs).inStep)

/-- The difference is empty exactly when its table is zero. -/
theorem empty_iff_table {d : Iblt size} : d.empty = true ↔ d.riblt.table = 0 := by
  unfold Iblt.empty
  rw [Bool.and_eq_true, Vector.all_eq_true, Vector.all_eq_true]
  constructor
  · rintro ⟨hc, hb⟩
    funext c
    have h₁ := hc c.val c.isLt
    have h₂ := hb c.val c.isLt
    exact Prod.ext (eq_of_beq h₁) ((TxSlice.empty_iff _).mp h₂)
  · intro h
    refine ⟨fun i hi => ?_, fun i hi => ?_⟩
    · have := congrArg Prod.fst (congrFun h ⟨i, hi⟩)
      exact beq_iff_eq.mpr this
    · have := congrArg Prod.snd (congrFun h ⟨i, hi⟩)
      exact (TxSlice.empty_iff _).mpr this

/-- A run of one turn: the sender has one transaction more, of one slice. -/
theorem allTxs_peel : ∃ (theirs ours : RawIblt 6) (st₀ st : PeelState 6) (s : TxSlice),
    ofTxmap headHashes 6 1 allTxs = .ok theirs ∧ ofTxmap headHashes 6 1 rightTxs = .ok ours ∧
      PeelStart headHashes (fun _ => true) theirs ours 1 rightTxs st₀ ∧
      st₀.diff.next = .ok (some (.THEIRS, s)) ∧
      peelBody headHashes st₀ .THEIRS s = .ok (.again st) ∧ st.slices.toList = [s] ∧
      peel headHashes st₀ = .ok (some st) ∧ st.diff.empty = true := by
  obtain ⟨theirs, ours, d, s, htheirs, hours, hd, hin, hcell, hone⟩ := allTxs_difference
  have hids : rightTxs.DistinctIds headHashes 1 := headTxs_distinctIds _ 1
  obtain ⟨pool, hp, -⟩ := IbltPool.new_ok (show (1 : U64) ≠ 0 by decide) hids
  have hnext : d.next = .ok (some (.THEIRS, s)) := by
    rcases hin.sync.next with ⟨-, hall⟩ | ⟨n, hne, -, hnext, -⟩
    · refine absurd (hall 0 ?_) (Finset.notMem_empty 0)
      have hcount : d.riblt.counts.get 0 = 1 := congrArg Prod.fst (hone 0)
      rw [Iblt.typeAt, hcount]
      decide
    · by_cases hn : n.val < 3
      · have hcount : d.riblt.counts.get n = 1 := congrArg Prod.fst ((hone n).trans (if_pos hn))
        have hbucket : d.riblt.buckets.get n = s :=
          congrArg Prod.snd ((hone n).trans (if_pos hn))
        rw [hnext, Iblt.typeAt, hcount, hbucket]
        rfl
      · have hcount : d.riblt.counts.get n = 0 := congrArg Prod.fst ((hone n).trans (if_neg hn))
        rw [Iblt.typeAt, hcount] at hne
        exact absurd rfl hne
  obtain ⟨diff, hdiff, hin', hzero⟩ := removeTheirSlice_turn (show 0 < 6 by decide)
    (s := s) hin
  have hbody : peelBody headHashes ⟨d, pool.txByTxid48, OrdSet.empty⟩ .THEIRS s =
      .ok (.again ⟨diff, pool.txByTxid48, (OrdSet.empty.insert s).1⟩) := by
    unfold peelBody
    rw [hdiff]
    rfl
  have hempty : diff.empty = true :=
    empty_iff_table.mpr (hzero.trans (sub_eq_zero.mpr hcell))
  have hnone : diff.next = .ok none := by
    rcases hin'.sync.next with ⟨hnone, -⟩ | ⟨n, hne, -⟩
    · exact hnone
    · have hcount : diff.riblt.counts.get n = 0 :=
        congrArg Prod.fst (congrFun (empty_iff_table.mp hempty) n)
      rw [Iblt.typeAt, hcount] at hne
      exact absurd rfl hne
  refine ⟨theirs, ours, ⟨d, pool.txByTxid48, OrdSet.empty⟩,
    ⟨diff, pool.txByTxid48, (OrdSet.empty.insert s).1⟩, s, htheirs, hours, ⟨d, pool, hd, hp, rfl⟩,
    hnext, hbody, rfl, ?_, hempty⟩
  have hturn : peelStep headHashes ⟨d, pool.txByTxid48, OrdSet.empty⟩ =
      .ok (.again ⟨diff, pool.txByTxid48, (OrdSet.empty.insert s).1⟩) := by
    rw [peelStep, hnext]
    exact hbody
  have hdone : peelStep headHashes ⟨diff, pool.txByTxid48, (OrdSet.empty.insert s).1⟩ =
      .ok .done := by
    rw [peelStep, hnone]
    rfl
  rw [peel_eq, hturn, ok_bind]
  show peel headHashes _ = _
  rw [peel_eq, hdone]
  rfl

/-- **Conservation.** At every head of the peeling loop the difference table is the sender's table
less the slices of the transactions left in the pool and less the collected slices. If the loop
ends with an empty difference, the sender's table is what inserting those slices gives. -/
theorem peeling_conserves (H : Hashes) {size : ℕ} (junk : BucketType → Bool)
    (theirs ours : RawIblt size) (seed : U64) (m : Txmap) (hids : m.DistinctIds H seed)
    (hours : ofTxmap H size seed m = .ok ours) :
    (∀ st, Reachable (PeelStart H junk theirs ours seed m) (PeelTurn H) st →
      st.diff.riblt.table = theirs.table -
        total (hits H) unit (poolSlices H st.txByTxid48.entries) -
        total (hits H) unit st.slices.toList) ∧
    ∀ st₀ st, PeelStart H junk theirs ours seed m st₀ → peel H st₀ = .ok (some st) →
      st.diff.empty = true →
      ∀ l : List TxSlice, l.Perm (poolSlices H st.txByTxid48.entries ++ st.slices.toList) →
        l.foldlM (fun r s => r.insert H s) (blank size) = .ok theirs := by
  refine ⟨fun st hst => (Conserved.of_reachable hids hours hst).table,
    fun st₀ st hst₀ hpeel hempty l hl => ?_⟩
  have hreach : Reachable (PeelStart H junk theirs ours seed m) (PeelTurn H) st :=
    Reachable.trans (.start hst₀) (peel_some hpeel).1
  have hcons := Conserved.of_reachable hids hours hreach
  have htable : theirs.table = total (hits H) unit l := by
    have h₀ := empty_iff_table.mp hempty
    rw [hcons.table, sub_sub, sub_eq_zero] at h₀
    rw [h₀, total_perm _ _ hl, total_append]
  by_cases hsize : 0 < size
  · obtain ⟨r, hr, ht⟩ := foldlM_add (φ := table) (g := put (hits H) unit) l
      (fun s _ r => insert_ok hsize r s) (blank size)
    rw [hr, show r = theirs from table_injective ?_]
    rw [ht, table_blank, zero_add, htable]
    rfl
  · rw [nothing_of_no_buckets hsize hids hours hreach] at hl
    rw [hl.eq_nil]
    exact congrArg Except.ok (table_injective (funext fun c => absurd c.isLt (by omega)))

theorem peeling_conserves_allTxs : ∃ (theirs ours : RawIblt 6) (st₀ st : PeelState 6) (s : TxSlice),
    ofTxmap headHashes 6 1 allTxs = .ok theirs ∧ ofTxmap headHashes 6 1 rightTxs = .ok ours ∧
      PeelStart headHashes (fun _ => true) theirs ours 1 rightTxs st₀ ∧
      PeelTurn headHashes st₀ st ∧ st.slices.toList = [s] ∧
      st.diff.riblt.table = theirs.table -
        total (hits headHashes) unit (poolSlices headHashes st.txByTxid48.entries) -
        total (hits headHashes) unit [s] ∧
      (s :: poolSlices headHashes st.txByTxid48.entries).foldlM (fun r s => r.insert headHashes s)
        (blank 6) = .ok theirs := by
  obtain ⟨theirs, ours, st₀, st, s, htheirs, hours, hst₀, hnext, hbody, hslices, hpeel, hempty⟩ :=
    allTxs_peel
  obtain ⟨htable, hend⟩ := peeling_conserves headHashes (fun _ => true) theirs ours 1 rightTxs
    (headTxs_distinctIds _ 1) hours
  have hturn : PeelTurn headHashes st₀ st := by
    unfold PeelTurn peelStep
    rw [hnext, ok_bind]
    exact hbody
  have hsum := htable st (.next (.start hst₀) hturn)
  have hins := hend st₀ st hst₀ hpeel hempty
  rw [hslices] at hsum hins
  exact ⟨theirs, ours, st₀, st, s, htheirs, hours, hst₀, hturn, hslices, hsum,
    hins _ (List.perm_append_singleton _ _).symm⟩

end BitcoinIblt
