import BitcoinIblt.BlockComparison
import BitcoinIblt.Conservation

/-!
# Exactness of peeling

The two cases in which the difference holds slices of one side only. If the receiver has a superset
of the block, the table is the negated sum of the slices that are too many, every single slice is
one of ours, and a whole transaction goes with it (`recoverBlock_superset`). If the receiver has a
subset, the table is the sum of the missing slices and they go one by one (`peel_subset`). With
fewer than 65535 hits in a bucket its count tells whether there is exactly one. What is peeled first
does not matter (`Lib.Peeling`).
-/

namespace BitcoinIblt

open SignedTable RawIblt Transition Peeling

variable {H : Hashes} {size : ℕ}

/-! ## Counts -/

theorem natCast_eq_iff {m k : ℕ} (hm : m < 65536) (hk : k < 65536) :
    ((m : ℕ) : S16) = (k : S16) ↔ m = k := by
  refine ⟨fun h => ?_, fun h => by rw [h]⟩
  have h' := congrArg BitVec.toNat h
  simp only [BitVec.natCast_eq_ofNat, BitVec.toNat_ofNat] at h'
  omega

theorem natCast_eq_one_iff {m : ℕ} (hm : m < 65535) : ((m : ℕ) : S16) = 1 ↔ m = 1 :=
  natCast_eq_iff (by omega) (by decide)

theorem natCast_eq_zero_iff {m : ℕ} (hm : m < 65535) : ((m : ℕ) : S16) = 0 ↔ m = 0 :=
  natCast_eq_iff (by omega) (by decide)

theorem natCast_ne_neg_one {m : ℕ} (hm : m < 65535) : ((m : ℕ) : S16) ≠ -1 := by
  have h : ((m : ℕ) : S16) = ((65535 : ℕ) : S16) ↔ m = 65535 :=
    natCast_eq_iff (by omega) (by decide)
  intro h'
  have := h.mp h'
  omega

theorem fst_total (l : List TxSlice) (n : Fin size) :
    (total (hits H) unit l n).1 = ((load (hits H) l n : ℕ) : S16) :=
  hom_total_apply (AddMonoidHom.fst S16 TxSlice) (fun _ => rfl) l n

/-- Every slice hits some bucket. -/
theorem exists_hit (hsize : 0 < size) (s : TxSlice) : ∃ c : Fin size, 0 < hits H s c := by
  refine ⟨⟨hashPos H size s 0, Nat.mod_lt _ hsize⟩, ?_⟩
  rw [hits, List.count_pos_iff]
  exact List.mem_map.mpr ⟨0, by decide, rfl⟩

/-- A table of slices is zero only if there are none. -/
theorem total_eq_zero_iff (hsize : 0 < size) {l : List TxSlice}
    (hload : ∀ c : Fin size, load (hits H) l c < 65535) :
    (total (hits H) unit l : Fin size → Cell) = 0 ↔ l = [] := by
  refine ⟨fun h => ?_, fun h => by rw [h, total_nil]⟩
  by_contra hne
  obtain ⟨s, hs⟩ := List.exists_mem_of_ne_nil l hne
  obtain ⟨c, hc⟩ := exists_hit (H := H) hsize s
  have hcount := fst_total (H := H) l c
  rw [h] at hcount
  have hzero := (natCast_eq_zero_iff (hload c)).mp hcount.symm
  have hle : hits H s c ≤ load (hits H) l c := hits_le_load hs c
  omega

/-! ## Maps -/

theorem Txmap.DistinctIds.of_subset {seed : U64} {M B : Txmap} (h : B.DistinctIds H seed)
    (hsub : ∀ e ∈ M.entries, e ∈ B.entries) : M.DistinctIds H seed :=
  List.Nodup.map_on (fun e he e' he' heq =>
    List.inj_on_of_nodup_map h (hsub e he) (hsub e' he') heq) M.entries_nodup

/-! ## The receiver has a superset -/

/-- How often the slices of a transaction hit a bucket. -/
def txHits (H : Hashes) (size : ℕ) (seed : U64) (e : BitcoinTxid × Tx) (c : Fin size) : ℕ :=
  load (hits H) (txSlices H seed e) c

theorem load_entrySlices (seed : U64) (l : List (BitcoinTxid × Tx)) (c : Fin size) :
    load (hits H) (entrySlices H seed l) c = load (txHits H size seed) l c :=
  load_flatMap _ l c

/-- A state of the peeling loop in which the transactions of `rem` are still to be removed. -/
structure Excess (H : Hashes) (seed : U64) (M B : Txmap) (rem : List (BitcoinTxid × Tx))
    (st : PeelState size) : Prop where
  inStep : Iblt.InStep H st.diff ∅
  slices : st.slices.toList = []
  pool : st.txByTxid48.entries.Perm ((rem ++ M.inter B).map (poolEntry H seed))
  table : st.diff.riblt.table = -total (hits H) unit (entrySlices H seed rem)
  sub : rem.Subperm (M.sdiff B)
  peelable : Peelable (txHits H size seed) rem ↔ Peelable (txHits H size seed) (M.sdiff B)

section Superset

variable {seed : U64} {M B : Txmap} {rem : List (BitcoinTxid × Tx)} {st : PeelState size}
  (hload : ∀ c : Fin size, load (txHits H size seed) (M.sdiff B) c < 65535)

include hload

theorem Excess.load_lt (h : Excess H seed M B rem st) (c : Fin size) :
    load (txHits H size seed) rem c < 65535 :=
  (load_le_of_subperm h.sub c).trans_lt (hload c)

omit hload in
/-- A bucket with one hit holds a slice of a transaction that is alone in it. -/
theorem Excess.single (h : Excess H seed M B rem st) {n : Fin size}
    (hone : load (txHits H size seed) rem n = 1) :
    ∃ e ∈ rem, st.diff.riblt.buckets.get n ∈ txSlices H seed e ∧
      Alone (txHits H size seed) rem e := by
  obtain ⟨s, hs, hpos, hval⟩ : ∃ s ∈ entrySlices H seed rem, 0 < hits H s n ∧
      total (hits H) unit (entrySlices H seed rem) n = unit s :=
    total_apply_of_load_eq_one ((load_entrySlices seed rem n).trans hone)
  have hbucket : st.diff.riblt.buckets.get n = s := by
    have hcell := congrArg Prod.snd (congrFun h.table n)
    rw [Pi.neg_apply, hval] at hcell
    exact hcell
  obtain ⟨e, he, hse⟩ := List.mem_flatMap.mp hs
  rw [hbucket]
  exact ⟨e, he, hse, n, hpos.trans_le (hits_le_load hse n), hone⟩

/-- Every single slice is one of ours, and a bucket holds one exactly if it has one hit. -/
theorem Excess.typeAt (h : Excess H seed M B rem st) (n : Fin size) :
    (st.diff.typeAt n = .NEITHER ∧ load (txHits H size seed) rem n ≠ 1) ∨
      (st.diff.typeAt n = .OURS ∧ load (txHits H size seed) rem n = 1) := by
  have hlt := h.load_lt hload n
  have hcount : st.diff.riblt.counts.get n = -((load (txHits H size seed) rem n : ℕ) : S16) := by
    rw [← load_entrySlices, ← fst_total]
    exact congrArg Prod.fst (congrFun h.table n)
  have hours : st.diff.typeAt n = .OURS ↔ load (txHits H size seed) rem n = 1 := by
    rw [Iblt.typeAt, Iblt.bucketType_eq_ours, hcount, neg_inj]
    exact natCast_eq_one_iff hlt
  have htheirs : st.diff.typeAt n ≠ .THEIRS := by
    rw [Iblt.typeAt, ne_eq, Iblt.bucketType_eq_theirs, hcount, neg_eq_iff_eq_neg]
    exact natCast_ne_neg_one hlt
  cases ht : st.diff.typeAt n with
  | OURS => exact Or.inr ⟨rfl, hours.mp ht⟩
  | THEIRS => exact absurd ht htheirs
  | NEITHER => exact Or.inl ⟨rfl, fun h₁ => by rw [hours.mpr h₁] at ht; cases ht⟩

variable (hsize : 0 < size) (hsl : ∀ e ∈ M.entries, Sliceable e.2.btx)

include hsize hsl

/-- Picking a single slice, whichever, removes a transaction that was alone in some bucket. -/
theorem Excess.turn (h : Excess H seed M B rem st) {n : Fin size}
    (hn : st.diff.typeAt n ≠ .NEITHER) :
    st.diff.typeAt n = .OURS ∧
      (∃ tx, st.txByTxid48.find (st.diff.riblt.buckets.get n).getTxid48 = some tx) ∧
      ∃ st' rem',
        peelBody H st (st.diff.typeAt n) (st.diff.riblt.buckets.get n) = .ok (.again st') ∧
        Excess H seed M B rem' st' := by
  obtain ⟨htype, hone⟩ := (h.typeAt hload n).resolve_left fun h' => hn h'.1
  obtain ⟨e, he, hse, halone⟩ := h.single hone
  generalize st.diff.riblt.buckets.get n = s at hse ⊢
  have hid : s.getTxid48 = txid48 H seed e.1 := txidbits_of_mem _ hse
  obtain ⟨l₁, l₂, rfl⟩ := List.append_of_mem he
  have hrem : (l₁ ++ e :: l₂).Perm (e :: (l₁ ++ l₂)) := List.perm_middle
  have hpool : st.txByTxid48.entries.Perm
      (poolEntry H seed e :: (l₁ ++ l₂ ++ M.inter B).map (poolEntry H seed)) :=
    h.pool.trans ((hrem.append_right _).map _)
  have hfind : st.txByTxid48.find s.getTxid48 = some e.2 := by
    rw [UnorderedMap.find_eq_some_iff, hid]
    exact hpool.mem_iff.mpr List.mem_cons_self
  have heM : Sliceable e.2.btx :=
    hsl e (List.mem_of_mem_filter (h.sub.subset he))
  -- it is removed as a whole
  obtain ⟨diff, hd, hin, htable, -⟩ := removeOurTx_turn hsize h.inStep heM hfind
  have herase : (st.txByTxid48.erase s.getTxid48).2 = true :=
    UnorderedMap.erase_snd.mpr ⟨e.2, UnorderedMap.find_eq_some_iff.mp hfind⟩
  refine ⟨htype, ⟨e.2, hfind⟩,
    ⟨diff, (st.txByTxid48.erase s.getTxid48).1, st.slices⟩, l₁ ++ l₂, ?_, ?_⟩
  · rw [htype]
    unfold peelBody
    simp only [hfind, hd, ok_bind, herase, if_true]
    rfl
  · refine ⟨hin, h.slices, ?_, ?_, ?_, (peelable_iff_of_alone halone hrem).symm.trans h.peelable⟩
    · have hmem := UnorderedMap.find_eq_some_iff.mp hfind
      refine List.Perm.cons_inv (((UnorderedMap.erase_perm hmem).symm.trans hpool).trans ?_)
      rw [hid]
      exact List.Perm.refl _
    · rw [htable, h.table, entrySlices, total_perm _ _ (hrem.flatMap_right _), List.flatMap_cons,
        total_append, hid]
      show -(total (hits H) unit (slicesOf H e.2.btx (txid48 H seed e.1)) + _) + _ = _
      rw [neg_add, neg_add_cancel_comm, entrySlices]
    · exact (List.sublist_cons_self e _).subperm.trans (hrem.symm.subperm.trans h.sub)

/-- When no single slice is left, the rest of the program says whether everything is removed. -/
theorem Excess.finish (h : Excess H seed M B rem st) (A : Allocator) (hkeyed : M.Keyed)
    (hsub : ∀ e ∈ B.entries, e ∈ M.entries) (hstuck : ∀ n, st.diff.typeAt n = .NEITHER) :
    ∃ b, BitcoinIblt.finish H A st B = .ok b ∧
      (b = true ↔ Peelable (txHits H size seed) (M.sdiff B)) := by
  have halone : ∀ e ∈ rem, ¬ Alone (txHits H size seed) rem e := by
    rintro e - ⟨c, -, hone⟩
    rcases h.typeAt hload c with ⟨-, hne⟩ | ⟨htype, -⟩
    · exact hne hone
    · rw [hstuck c] at htype
      cases htype
  rw [← h.peelable, peelable_iff_of_stuck halone]
  have hempty : st.diff.empty = true ↔ rem = [] := by
    rw [empty_iff_table, h.table, neg_eq_zero, total_eq_zero_iff hsize fun c => by
      rw [load_entrySlices]; exact h.load_lt hload c]
    constructor
    · intro hnil
      by_contra hne
      obtain ⟨e, he⟩ := List.exists_mem_of_ne_nil rem hne
      exact slicesOf_ne_nil _ (hsl e (List.mem_of_mem_filter (h.sub.subset he)))
        (List.flatMap_eq_nil_iff.mp hnil e he)
    · rintro rfl
      rfl
  unfold BitcoinIblt.finish
  rw [h.slices]
  by_cases hrem : rem = []
  · -- the block is what is left of the pool
    have hpool := h.pool
    rw [hrem, List.nil_append] at hpool
    have hinter := Txmap.inter_perm_of_subset hsub
    have htxids : (st.txByTxid48.entries.map fun p => p.2.txid).Perm (B.entries.map Prod.fst) := by
      refine (hpool.map _).trans (((hinter.map _).map _).trans ?_)
      rw [List.map_map]
      refine List.Perm.of_eq (List.map_congr_left fun e he => ?_)
      exact hkeyed e (hsub e he)
    refine ⟨true, ?_, iff_of_true rfl hrem⟩
    rw [if_pos (hempty.mpr hrem)]
    have hcompare : compareBlock H [] st.txByTxid48 B = true :=
      (compareBlock_iff H [] st.txByTxid48 B).mpr htxids.symm
    show Except.ok (compareBlock H [] st.txByTxid48 B) = _
    rw [hcompare]
  · refine ⟨false, ?_, iff_of_false (by decide) hrem⟩
    rw [if_neg fun h' => hrem (hempty.mp h')]
    rfl

omit hload hsize hsl

theorem Excess.start (hsize : 0 < size) (hseed : seed ≠ 0)
    (hsub : ∀ e ∈ B.entries, e ∈ M.entries) (hsl : ∀ e ∈ M.entries, Sliceable e.2.btx)
    (hids : M.DistinctIds H seed) (junk : BucketType → Bool) :
    ∃ (theirs ours : RawIblt size) (diff : Iblt size) (pool : IbltPool),
      ofTxmap H size seed B = .ok theirs ∧ ofTxmap H size seed M = .ok ours ∧
      Iblt.new H junk theirs ours = .ok diff ∧ IbltPool.new H seed M = .ok pool ∧
      Excess H seed M B (M.sdiff B) ⟨diff, pool.txByTxid48, OrdSet.empty⟩ := by
  obtain ⟨theirs, ours, diff, htheirs, hours, hd, htable, hin⟩ := new_ofTxmap (H := H) hsize hseed
    (Txmap.agree_of_subset hsub) (fun e he => hsl e (hsub e he)) hsl junk
  obtain ⟨pool, hp, hh⟩ := IbltPool.new_ok hseed hids
  refine ⟨theirs, ours, diff, pool, htheirs, hours, hd, hp, hin, rfl, ?_, ?_,
    List.Subperm.refl _, Iff.rfl⟩
  · exact hh.byId.trans ((M.sdiff_append_inter B).symm.map _)
  · rw [htable, Txmap.sdiff_eq_nil hsub]
    exact zero_sub _

end Superset

/-- **Superset.** If the mempool contains the block and no bucket gets 65535 hits or more from the
transactions that are too many, `recover_block` returns `true` exactly if these can be put in an
order in which each has a slice alone in some bucket among its own and the later slices. In every
run of the peeling loop, whichever single slices it picks, each is one of ours and is found in the
pool, and when none is left the answer is the same. -/
theorem recoverBlock_superset (H : Hashes) (A : Allocator) {size : ℕ} (hsize : 0 < size)
    (junk : BucketType → Bool) {seed : U64} (hseed : seed ≠ 0) (M B : Txmap) (hkeyed : M.Keyed)
    (hsub : ∀ e ∈ B.entries, e ∈ M.entries) (hsl : ∀ e ∈ M.entries, Sliceable e.2.btx)
    (hids : M.DistinctIds H seed)
    (hload : ∀ c : Fin size, load (txHits H size seed) (M.sdiff B) c < 65535) :
    ∃ theirs ours : RawIblt size,
      ofTxmap H size seed B = .ok theirs ∧ ofTxmap H size seed M = .ok ours ∧
      (∃ b, recoverBlock H A junk theirs ours seed M B = .ok b ∧
        (b = true ↔ Peelable (txHits H size seed) (M.sdiff B))) ∧
      ∀ st, Reachable (PeelStart H junk theirs ours seed M) (PickTurn H) st →
        (∀ n, st.diff.typeAt n ≠ .NEITHER → st.diff.typeAt n = .OURS ∧
          (∃ tx, st.txByTxid48.find (st.diff.riblt.buckets.get n).getTxid48 = some tx) ∧
          ∃ st',
            peelBody H st (st.diff.typeAt n) (st.diff.riblt.buckets.get n) = .ok (.again st')) ∧
        ((∀ n, st.diff.typeAt n = .NEITHER) → ∃ b, finish H A st B = .ok b ∧
          (b = true ↔ Peelable (txHits H size seed) (M.sdiff B))) := by
  obtain ⟨theirs, ours, diff, pool, htheirs, hours, hd, hp, hstart⟩ :=
    Excess.start hsize hseed hsub hsl hids junk
  have hturn : ∀ st : PeelState size, (∃ rem, Excess H seed M B rem st) → ∀ n,
      st.diff.typeAt n ≠ .NEITHER →
      ∃ st', peelBody H st (st.diff.typeAt n) (st.diff.riblt.buckets.get n) = .ok (.again st') ∧
        ∃ rem, Excess H seed M B rem st' := by
    rintro st ⟨rem, hinv⟩ n hne
    obtain ⟨-, -, st', rem', hbody, hinv'⟩ := hinv.turn hload hsize hsl hne
    exact ⟨st', hbody, rem', hinv'⟩
  refine ⟨theirs, ours, htheirs, hours, ?_, fun st hst => ?_⟩
  · -- the loop as it is
    obtain ⟨st, hpeel, ⟨rem, hinv⟩, hstuck⟩ :=
      peel_ends_stuck (fun _ ⟨_, hinv⟩ => hinv.inStep) hturn ⟨_, hstart⟩
    obtain ⟨b, hb, hiff⟩ := hinv.finish hload hsize hsl A hkeyed hsub hstuck
    refine ⟨b, ?_, hiff⟩
    rw [recoverBlock, hd, ok_bind, hp, ok_bind, hpeel, ok_bind]
    exact hb
  · -- a loop that picks otherwise
    obtain ⟨rem, hinv⟩ : ∃ rem, Excess H seed M B rem st := by
      refine hst.invariant (fun st => ∃ rem, Excess H seed M B rem st) (fun st hst => ?_)
        fun st st' hinv hpick => inv_of_pick hturn hinv hpick
      obtain ⟨diff', pool', hd', hp', rfl⟩ := hst
      rw [hd] at hd'
      rw [hp] at hp'
      cases hd'
      cases hp'
      exact ⟨_, hstart⟩
    refine ⟨fun n hne => ?_, hinv.finish hload hsize hsl A hkeyed hsub⟩
    obtain ⟨htype, hfind, st', -, hbody, -⟩ := hinv.turn hload hsize hsl hne
    exact ⟨htype, hfind, st', hbody⟩

/-- `spreadHashes` sends a slice once to each of three buckets. -/
theorem hits_spread (s : TxSlice) (c : Fin 3) : hits spreadHashes s c = 1 := by
  fin_cases c <;> rfl

theorem sdiff_empty (m : Txmap) : m.sdiff UnorderedMap.empty = m.entries := by
  simp [Txmap.sdiff, UnorderedMap.keys, UnorderedMap.empty]

theorem load_oneTx (c : Fin 3) :
    load (hits spreadHashes) (entrySlices spreadHashes 1 oneTx.entries) c = 1 := by
  obtain ⟨s, hs⟩ := List.length_eq_one_iff.mp
    (length_slicesOf_blank spreadHashes (txid48 spreadHashes 1 (zeroBytes 32)))
  have hslices : entrySlices spreadHashes 1 oneTx.entries = [s] :=
    (List.append_nil _).trans hs
  rw [hslices, load_cons, hits_spread, load_nil]

/-- One transaction too many is peeled off. -/
theorem recoverBlock_superset_oneTx : ∃ theirs ours : RawIblt 3,
    ofTxmap spreadHashes 3 1 UnorderedMap.empty = .ok theirs ∧
      ofTxmap spreadHashes 3 1 oneTx = .ok ours ∧
      recoverBlock spreadHashes (fun _ _ => true) (fun _ => true) theirs ours 1 oneTx
        UnorderedMap.empty = .ok true := by
  have hload : ∀ c : Fin 3,
      load (txHits spreadHashes 3 1) (Txmap.sdiff oneTx UnorderedMap.empty) c = 1 := fun c => by
    rw [sdiff_empty, ← load_entrySlices, load_oneTx]
  obtain ⟨theirs, ours, htheirs, hours, ⟨b, hb, hiff⟩, -⟩ := recoverBlock_superset spreadHashes
    (fun _ _ => true) (show 0 < 3 by decide) (fun _ => true) (show (1 : U64) ≠ 0 by decide) oneTx
    UnorderedMap.empty oneTx_keyed (fun e he => absurd he List.not_mem_nil) oneTx_sliceable
    (List.nodup_singleton _) fun c => by rw [hload]; decide
  refine ⟨theirs, ours, htheirs, hours, ?_⟩
  rw [hb, hiff.mpr]
  rw [sdiff_empty] at hload ⊢
  refine ⟨oneTx.entries, List.Perm.refl _, ⟨0, ?_, hload 0⟩, trivial⟩
  have h := hload 0
  rw [oneTx, load_cons, load_nil] at h
  omega

/-! ## The receiver has a subset -/

/-- No two slices of transactions with distinct ids are one slice to a set. -/
theorem entrySlices_key_nodup {seed : U64} {l : List (BitcoinTxid × Tx)}
    (h : (l.map fun e => txid48 H seed e.1).Nodup) :
    ((entrySlices H seed l).map TxSlice.key).Nodup := by
  have hkey : ∀ e, ∀ s ∈ txSlices H seed e, s.key / 2 ^ 16 = (txid48 H seed e.1).toNat := by
    intro e s hs
    have hfrag := s.fragid.isLt
    have hid : s.txidbits = txid48 H seed e.1 := txidbits_of_mem _ hs
    rw [TxSlice.key, ← hid]
    omega
  rw [entrySlices, List.map_flatMap, List.nodup_flatMap]
  constructor
  · intro e _
    refine List.Nodup.of_map (BitVec.ofNat 16) ?_
    have hfrag : (txSlices H seed e).map (BitVec.ofNat 16 ∘ TxSlice.key) =
        (txSlices H seed e).map TxSlice.fragid := by
      refine List.map_congr_left fun s _ => BitVec.eq_of_toNat_eq ?_
      have hlt := s.fragid.isLt
      simp only [Function.comp_apply, BitVec.toNat_ofNat, TxSlice.key]
      omega
    rw [List.map_map, hfrag]
    exact fragids_nodup _
  · refine (List.pairwise_map.mp h).imp fun {e e'} hne => ?_
    intro k hk hk'
    obtain ⟨s, hs, rfl⟩ := List.mem_map.mp hk
    obtain ⟨s', hs', heq⟩ := List.mem_map.mp hk'
    refine hne (BitVec.eq_of_toNat_eq ?_)
    rw [← hkey e s hs, ← hkey e' s' hs', heq]

/-- A state of the peeling loop in which the slices of `rem` are still to be collected. -/
structure Missing (H : Hashes) (all rem : List TxSlice) (st : PeelState size) : Prop where
  inStep : Iblt.InStep H st.diff ∅
  table : st.diff.riblt.table = total (hits H) unit rem
  perm : (st.slices.toList ++ rem).Perm all
  peelable : Peelable (hits H : TxSlice → Fin size → ℕ) rem ↔
    Peelable (hits H : _ → Fin size → ℕ) all

section Subset

variable {all rem : List TxSlice} {st : PeelState size}
  (hload : ∀ c : Fin size, load (hits H) all c < 65535)

include hload

theorem Missing.load_lt (h : Missing H all rem st) (c : Fin size) :
    load (hits H) rem c < 65535 := by
  refine (load_le_of_subperm ?_ c).trans_lt (hload c)
  exact (List.sublist_append_right _ _).subperm.trans h.perm.subperm

omit hload in
/-- A bucket with one hit holds a missing slice that is alone in it. -/
theorem Missing.single (h : Missing H all rem st) {n : Fin size} (hone : load (hits H) rem n = 1) :
    st.diff.riblt.buckets.get n ∈ rem ∧
      Alone (hits H : TxSlice → Fin size → ℕ) rem (st.diff.riblt.buckets.get n) := by
  obtain ⟨s, hs, hpos, hval⟩ : ∃ s ∈ rem, 0 < hits H s n ∧ total (hits H) unit rem n = unit s :=
    total_apply_of_load_eq_one hone
  have hbucket : st.diff.riblt.buckets.get n = s := by
    have hcell := congrArg Prod.snd (congrFun h.table n)
    rw [hval] at hcell
    exact hcell
  rw [hbucket]
  exact ⟨hs, n, hpos, hone⟩

/-- Every single slice is one of theirs, and a bucket holds one exactly if it has one hit. -/
theorem Missing.typeAt (h : Missing H all rem st) (n : Fin size) :
    (st.diff.typeAt n = .NEITHER ∧ load (hits H) rem n ≠ 1) ∨
      (st.diff.typeAt n = .THEIRS ∧ load (hits H) rem n = 1) := by
  have hlt := h.load_lt hload n
  have hcount : st.diff.riblt.counts.get n = ((load (hits H) rem n : ℕ) : S16) := by
    rw [← fst_total]
    exact congrArg Prod.fst (congrFun h.table n)
  have htheirs : st.diff.typeAt n = .THEIRS ↔ load (hits H) rem n = 1 := by
    rw [Iblt.typeAt, Iblt.bucketType_eq_theirs, hcount]
    exact natCast_eq_one_iff hlt
  have hours : st.diff.typeAt n ≠ .OURS := by
    rw [Iblt.typeAt, ne_eq, Iblt.bucketType_eq_ours, hcount]
    exact natCast_ne_neg_one hlt
  cases ht : st.diff.typeAt n with
  | OURS => exact absurd ht hours
  | THEIRS => exact Or.inr ⟨rfl, htheirs.mp ht⟩
  | NEITHER => exact Or.inl ⟨rfl, fun h₁ => by rw [htheirs.mpr h₁] at ht; cases ht⟩

variable (hsize : 0 < size)

include hsize

/-- Picking a single slice, whichever, collects a slice that is still missing. -/
theorem Missing.turn (hkeys : (all.map TxSlice.key).Nodup) (h : Missing H all rem st) {n : Fin size}
    (hn : st.diff.typeAt n ≠ .NEITHER) :
    st.diff.typeAt n = .THEIRS ∧ st.diff.riblt.buckets.get n ∈ all ∧
      st.diff.riblt.buckets.get n ∉ st.slices ∧
      ∃ st' rem',
        peelBody H st (st.diff.typeAt n) (st.diff.riblt.buckets.get n) = .ok (.again st') ∧
        Missing H all rem' st' := by
  obtain ⟨htype, hone⟩ := (h.typeAt hload n).resolve_left fun h' => hn h'.1
  obtain ⟨hs, halone⟩ := h.single hone
  generalize st.diff.riblt.buckets.get n = s at hs halone ⊢
  obtain ⟨l₁, l₂, rfl⟩ := List.append_of_mem hs
  have hrem : (l₁ ++ s :: l₂).Perm (s :: (l₁ ++ l₂)) := List.perm_middle
  have hall : (s :: (st.slices.toList ++ (l₁ ++ l₂))).Perm all :=
    List.perm_middle.symm.trans ((hrem.symm.append_left _).trans h.perm)
  -- no slice with its key has been collected
  have hnew : (st.slices.insert s).2 = true := by
    rw [OrdSet.insert_snd]
    intro b hb hE
    have hnodup := (hall.map TxSlice.key).nodup_iff.mpr hkeys
    rw [List.map_cons, List.nodup_cons] at hnodup
    refine hnodup.1 (List.mem_map.mpr ⟨b, List.mem_append_left _ hb, ?_⟩)
    exact (TxSlice.key_eq_iff.mpr (TxSlice.equiv_iff.mp hE)).symm
  obtain ⟨diff, hd, hin, htable⟩ := removeTheirSlice_turn hsize (s := s) h.inStep
  rw [htype]
  refine ⟨rfl, hall.subset List.mem_cons_self,
    fun hmem => OrdSet.insert_snd.mp hnew s hmem ⟨irrefl_of _ s, irrefl_of _ s⟩,
    ⟨diff, st.txByTxid48, (st.slices.insert s).1⟩, l₁ ++ l₂, ?_, hin, ?_, ?_, ?_⟩
  · unfold peelBody
    simp only [hnew, if_true, hd, ok_bind]
    rfl
  · rw [htable, h.table, total_perm _ _ hrem, total_cons, add_sub_cancel_left]
  · exact ((OrdSet.insert_perm hnew).append_right _).trans hall
  · exact (peelable_iff_of_alone halone hrem).symm.trans h.peelable

/-- When no single slice is left, the difference tells whether all slices have been collected. -/
theorem Missing.stuck (hkeys : (all.map TxSlice.key).Nodup) (h : Missing H all rem st)
    (hstuck : ∀ n, st.diff.typeAt n = .NEITHER) :
    (st.diff.empty = true ↔ ∀ s, s ∈ st.slices ↔ s ∈ all) ∧
      (st.diff.empty = true ↔ Peelable (hits H : TxSlice → Fin size → ℕ) all) := by
  have halone : ∀ s ∈ rem, ¬ Alone (hits H : TxSlice → Fin size → ℕ) rem s := by
    rintro s - ⟨c, -, hone⟩
    rcases h.typeAt hload c with ⟨-, hne⟩ | ⟨htype, -⟩
    · exact hne hone
    · rw [hstuck c] at htype
      cases htype
  have hempty : st.diff.empty = true ↔ rem = [] := by
    rw [empty_iff_table, h.table, total_eq_zero_iff hsize (h.load_lt hload)]
  refine ⟨?_, by rw [← h.peelable, peelable_iff_of_stuck halone, hempty]⟩
  rw [hempty]
  constructor
  · rintro rfl s
    rw [OrdSet.mem_def, ← h.perm.mem_iff, List.append_nil]
  · intro hmem
    refine List.eq_nil_iff_forall_not_mem.mpr fun s hs => ?_
    have hnodup := h.perm.nodup_iff.mpr hkeys.of_map
    exact List.disjoint_of_nodup_append hnodup
      ((hmem s).mpr (h.perm.subset (List.mem_append_right _ hs))) hs

end Subset

/-- **Subset.** If the block contains the mempool and no bucket gets 65535 hits or more from the
missing slices, every slice that the peeling loop reports is one of them, is theirs, and has not
been reported before; the loop never returns `false`. When it ends, the difference is empty exactly
if all missing slices have been collected, and exactly if they can be put in an order in which each
is alone in some bucket among itself and the later ones. -/
theorem peel_subset (H : Hashes) {size : ℕ} (hsize : 0 < size) (junk : BucketType → Bool)
    {seed : U64} (hseed : seed ≠ 0) (M B : Txmap) (hsub : ∀ e ∈ M.entries, e ∈ B.entries)
    (hsl : ∀ e ∈ B.entries, Sliceable e.2.btx) (hids : B.DistinctIds H seed)
    (hload : ∀ c : Fin size, load (hits H) (entrySlices H seed (B.sdiff M)) c < 65535) :
    ∃ (theirs ours : RawIblt size) (st₀ : PeelState size),
      ofTxmap H size seed B = .ok theirs ∧ ofTxmap H size seed M = .ok ours ∧
      PeelStart H junk theirs ours seed M st₀ ∧
      (∀ st, Reachable (· = st₀) (PeelTurn H) st → st.diff.next = .ok none ∨
        ∃ s, st.diff.next = .ok (some (.THEIRS, s)) ∧ s ∈ entrySlices H seed (B.sdiff M) ∧
          s ∉ st.slices ∧ ∃ st', peelStep H st = .ok (.again st')) ∧
      ∃ st, peel H st₀ = .ok (some st) ∧
        (st.diff.empty = true ↔ ∀ s, s ∈ st.slices ↔ s ∈ entrySlices H seed (B.sdiff M)) ∧
        (st.diff.empty = true ↔
          Peelable (hits H : TxSlice → Fin size → ℕ) (entrySlices H seed (B.sdiff M))) := by
  have hkeys : ((entrySlices H seed (B.sdiff M)).map TxSlice.key).Nodup :=
    entrySlices_key_nodup ((List.filter_sublist.map _).nodup hids)
  obtain ⟨theirs, ours, diff, htheirs, hours, hd, htable, hin⟩ := new_ofTxmap (H := H) hsize hseed
    (Txmap.agree_of_subset hsub).symm hsl (fun e he => hsl e (hsub e he)) junk
  obtain ⟨pool, hp, -⟩ := IbltPool.new_ok (H := H) hseed (hids.of_subset hsub)
  rw [Txmap.sdiff_eq_nil hsub] at htable
  have hstart : Missing H (entrySlices H seed (B.sdiff M)) (entrySlices H seed (B.sdiff M))
      ⟨diff, pool.txByTxid48, OrdSet.empty⟩ :=
    ⟨hin, htable.trans (sub_zero _), List.Perm.refl _, Iff.rfl⟩
  have hin : ∀ st : PeelState size, (∃ rem, Missing H (entrySlices H seed (B.sdiff M)) rem st) →
      Iblt.InStep H st.diff ∅ := fun _ ⟨_, hinv⟩ => hinv.inStep
  have hturn : ∀ st : PeelState size,
      (∃ rem, Missing H (entrySlices H seed (B.sdiff M)) rem st) → ∀ n,
      st.diff.typeAt n ≠ .NEITHER →
      ∃ st', peelBody H st (st.diff.typeAt n) (st.diff.riblt.buckets.get n) = .ok (.again st') ∧
        ∃ rem, Missing H (entrySlices H seed (B.sdiff M)) rem st' := by
    rintro st ⟨rem, hinv⟩ n hne
    obtain ⟨-, -, -, st', rem', hbody, hinv'⟩ := hinv.turn hload hsize hkeys hne
    exact ⟨st', hbody, rem', hinv'⟩
  refine ⟨theirs, ours, ⟨diff, pool.txByTxid48, OrdSet.empty⟩, htheirs, hours,
    ⟨diff, pool, hd, hp, rfl⟩, fun st hst => ?_, ?_⟩
  · obtain ⟨rem, hinv⟩ := inv_of_heads hin hturn ⟨_, hstart⟩ hst
    rcases hinv.inStep.sync.next with ⟨hn, -⟩ | ⟨n, hne, -, hn, -⟩
    · exact Or.inl hn
    · obtain ⟨htype, hall, hnew, st', -, hbody, -⟩ := hinv.turn hload hsize hkeys hne
      exact Or.inr ⟨_, by rw [hn, htype], hall, hnew, st', by rw [peelStep, hn]; exact hbody⟩
  · obtain ⟨st, hpeel, ⟨rem, hinv⟩, hstuck⟩ := peel_ends_stuck hin hturn ⟨_, hstart⟩
    exact ⟨st, hpeel, hinv.stuck hload hsize hkeys hstuck⟩

/-- One missing transaction of one slice is collected. -/
theorem peel_subset_oneTx : ∃ (theirs ours : RawIblt 3) (st₀ st : PeelState 3),
    ofTxmap spreadHashes 3 1 oneTx = .ok theirs ∧
      ofTxmap spreadHashes 3 1 UnorderedMap.empty = .ok ours ∧
      PeelStart spreadHashes (fun _ => true) theirs ours 1 UnorderedMap.empty st₀ ∧
      peel spreadHashes st₀ = .ok (some st) ∧
      (st.diff.empty = true ↔
        ∀ s, s ∈ st.slices ↔ s ∈ entrySlices spreadHashes 1 oneTx.entries) := by
  obtain ⟨theirs, ours, st₀, htheirs, hours, hst₀, -, st, hpeel, hall, -⟩ :=
    peel_subset spreadHashes (show 0 < 3 by decide) (fun _ => true)
      (show (1 : U64) ≠ 0 by decide) UnorderedMap.empty oneTx
      (fun e he => absurd he List.not_mem_nil) oneTx_sliceable (List.nodup_singleton _)
      fun c => by rw [sdiff_empty, load_oneTx]; decide
  rw [sdiff_empty] at hall
  exact ⟨theirs, ours, st₀, st, htheirs, hours, hst₀, hpeel, hall⟩

end BitcoinIblt
