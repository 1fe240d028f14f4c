import BitcoinIblt.Conservation

/-!
# Peeling always stops

Whatever the two tables hold, the peeling loop ends. A false single slice can be left in its bucket
by its own removal and can make new ones, so the number of buckets to look at says nothing. But a
transaction that is removed leaves the pool, and a slice that is removed goes into `slices`, where
there is no second one with its id and fragment id: the loop can turn only as often as there are
transactions in the mempool and keys of slices (`peeling_stops`).
-/

namespace BitcoinIblt

open RawIblt Transition

variable (H : Hashes) {size : ℕ}

/-- A turn of the loop with what `next` said: whose slice, and the slice. -/
def PeelEvent (st : PeelState size) (ev : BucketType × TxSlice) (st' : PeelState size) : Prop :=
  st.diff.next = .ok (some ev) ∧ peelBody H st ev.1 ev.2 = .ok (.again st')

/-- The short ids of the transactions that have been removed. -/
def removedIds (evs : List (BucketType × TxSlice)) : List Txid48 :=
  evs.filterMap fun ev => if ev.1 = .OURS then some ev.2.getTxid48 else none

/-- The keys of the slices that have been removed as theirs. -/
def removedKeys (evs : List (BucketType × TxSlice)) : List (BitVec 48 × U16) :=
  evs.filterMap fun ev => if ev.1 = .THEIRS then some (ev.2.txidbits, ev.2.fragid) else none

theorem removedIds_append (evs : List (BucketType × TxSlice)) (ev : BucketType × TxSlice) :
    removedIds (evs ++ [ev]) =
      removedIds evs ++ if ev.1 = .OURS then [ev.2.getTxid48] else [] := by
  rw [removedIds, List.filterMap_append]
  by_cases h : ev.1 = .OURS <;> simp [removedIds, h]

theorem removedKeys_append (evs : List (BucketType × TxSlice)) (ev : BucketType × TxSlice) :
    removedKeys (evs ++ [ev]) =
      removedKeys evs ++ if ev.1 = .THEIRS then [(ev.2.txidbits, ev.2.fragid)] else [] := by
  rw [removedKeys, List.filterMap_append]
  by_cases h : ev.1 = .THEIRS <;> simp [removedKeys, h]

/-- A slice without its contents. -/
def sliceKey (s : TxSlice) : BitVec 48 × U16 := (s.txidbits, s.fragid)

/-- A set has no two slices with one key. -/
theorem sliceKeys_nodup (slices : OrdSet TxSlice.lt) : (slices.toList.map sliceKey).Nodup := by
  refine List.pairwise_map.mpr (slices.sorted.imp fun {a b} hlt heq => ?_)
  have hkey : a.key = b.key := TxSlice.key_eq_iff.mpr ⟨congrArg Prod.fst heq, congrArg Prod.snd heq⟩
  rw [TxSlice.lt_iff_key, hkey] at hlt
  exact lt_irrefl _ hlt

/-- What a history of turns has done to the pool and to the set of slices. -/
structure Peeled (ids : List Txid48) (evs : List (BucketType × TxSlice)) (st : PeelState size) :
    Prop where
  inStep : Iblt.InStep H st.diff ∅
  sliceable : ∀ p ∈ st.txByTxid48.entries, Sliceable p.2.btx
  ids : ids.Perm (removedIds evs ++ st.txByTxid48.keys)
  keys : (st.slices.toList.map sliceKey).Perm (removedKeys evs)

variable {H}

/-- Every head of the loop ends it, makes it fail or turns it. -/
theorem Peeled.step {ids : List Txid48} {evs : List (BucketType × TxSlice)} {st : PeelState size}
    (h : Peeled H ids evs st) (hsize : 0 < size) : ∃ next, peelStep H st = .ok next := by
  rcases h.inStep.sync.next with ⟨hn, -⟩ | ⟨n, hne, -, hn, -⟩
  · exact ⟨.done, by rw [peelStep, hn]; rfl⟩
  · rw [peelStep, hn, ok_bind]
    show ∃ next, peelBody H st (st.diff.typeAt n) (st.diff.riblt.buckets.get n) = .ok next
    generalize st.diff.riblt.buckets.get n = s
    unfold peelBody
    cases ht : st.diff.typeAt n with
    | OURS =>
      simp only
      cases hf : st.txByTxid48.find s.getTxid48 with
      | none => exact ⟨_, rfl⟩
      | some tx =>
        have hmem := UnorderedMap.find_eq_some_iff.mp hf
        obtain ⟨diff, hd, -⟩ := removeOurTx_turn hsize h.inStep (h.sliceable _ hmem) hf
        simp only [hd, ok_bind]
        split_ifs <;> exact ⟨_, rfl⟩
    | THEIRS =>
      obtain ⟨diff, hd, -⟩ := removeTheirSlice_turn hsize (s := s) h.inStep
      simp only [hd, ok_bind]
      split_ifs <;> exact ⟨_, rfl⟩
    | NEITHER => exact absurd ht hne

theorem Peeled.turn {ids : List Txid48} {evs : List (BucketType × TxSlice)}
    {st st' : PeelState size} (h : Peeled H ids evs st) (hsize : 0 < size)
    {ev : BucketType × TxSlice} (hturn : PeelEvent H st ev st') :
    Peeled H ids (evs ++ [ev]) st' := by
  rcases peelBody_again hturn.2 with ⟨ht, tx, diff, n, hf, hr, rfl⟩ | ⟨ht, diff, hins, hr, rfl⟩
  · have hmem := UnorderedMap.find_eq_some_iff.mp hf
    obtain ⟨diff', hd', hin', -⟩ := removeOurTx_turn hsize h.inStep (h.sliceable _ hmem) hf
    rw [hr] at hd'
    cases hd'
    refine ⟨hin', fun p hp => h.sliceable p (UnorderedMap.mem_erase.mp hp).1, ?_, ?_⟩
    · have hperm : st.txByTxid48.keys.Perm
          (ev.2.getTxid48 :: (st.txByTxid48.erase ev.2.getTxid48).1.keys) :=
        (UnorderedMap.erase_perm hmem).map Prod.fst
      rw [removedIds_append, if_pos ht, List.append_assoc]
      exact h.ids.trans (hperm.append_left _)
    · rw [removedKeys_append, if_neg (by rw [ht]; decide), List.append_nil]
      exact h.keys
  · obtain ⟨diff', hd', hin', -⟩ := removeTheirSlice_turn hsize (s := ev.2) h.inStep
    rw [hr] at hd'
    cases hd'
    refine ⟨hin', h.sliceable, ?_, ?_⟩
    · rw [removedIds_append, if_neg (by rw [ht]; decide), List.append_nil]
      exact h.ids
    · rw [removedKeys_append, if_pos ht]
      have hperm := (OrdSet.insert_perm hins).map sliceKey
      exact hperm.trans ((h.keys.cons _).trans (List.perm_append_singleton _ _).symm)

/-- From a state that a history leads to, the loop ends or gives up. -/
theorem Peeled.returns {ids : List Txid48} {evs : List (BucketType × TxSlice)}
    {st : PeelState size} (h : Peeled H ids evs st) (hsize : 0 < size) :
    ∃ result, peel H st = .ok result := by
  refine peel_returns (fun st => ∃ evs, Peeled H ids evs st) (fun st ⟨evs, h⟩ => h.step hsize)
    (fun st st' ⟨evs, h⟩ hturn => ?_) ⟨evs, h⟩
  obtain ⟨t, s, hnext, hbody⟩ := peelStep_again hturn
  exact ⟨evs ++ [(t, s)], h.turn hsize ⟨hnext, hbody⟩⟩

theorem Peeled.start {junk : BucketType → Bool} {theirs ours : RawIblt size} {seed : U64}
    {m : Txmap} (hids : m.DistinctIds H seed) (hsl : ∀ e ∈ m.entries, Sliceable e.2.btx)
    {st : PeelState size} (h : PeelStart H junk theirs ours seed m st) :
    Peeled H (m.entries.map fun e => txid48 H seed e.1) [] st := by
  obtain ⟨diff, pool, hd, hp, rfl⟩ := h
  obtain ⟨diff', hd', -, hin⟩ := Iblt.new_ok H junk theirs ours
  rw [hd] at hd'
  cases hd'
  have hpool := new_holds hids hp
  refine ⟨hin, fun p hp => ?_, ?_, List.Perm.refl _⟩
  · obtain ⟨e, he, rfl⟩ := List.mem_map.mp (hpool.byId.mem_iff.mp hp)
    exact hsl e he
  · have hkeys : pool.txByTxid48.keys.Perm ((m.entries.map (poolEntry H seed)).map Prod.fst) :=
      hpool.byId.map Prod.fst
    rw [List.map_map] at hkeys
    exact hkeys.symm

/-- **Peeling stops.** For every two tables of one size and every mempool with distinct short ids
whose transactions can be cut, the loop ends, and no head of it throws. A history of the loop
removes each transaction of the mempool at most once and each key of a slice at most once, so it is
no longer than there are transactions and keys. -/
theorem peeling_stops (H : Hashes) {size : ℕ} (hsize : 0 < size) (junk : BucketType → Bool)
    (theirs ours : RawIblt size) (seed : U64) (m : Txmap) (hids : m.DistinctIds H seed)
    (hsl : ∀ e ∈ m.entries, Sliceable e.2.btx) :
    (seed ≠ 0 → ∃ st₀, PeelStart H junk theirs ours seed m st₀) ∧
    ∀ st₀, PeelStart H junk theirs ours seed m st₀ →
      (∃ result, peel H st₀ = .ok result) ∧
      ∀ evs st, History (· = st₀) (PeelEvent H) evs st →
        (∃ next, peelStep H st = .ok next) ∧
        (removedIds evs).Nodup ∧
        (∀ id ∈ removedIds evs, ∃ e ∈ m.entries, txid48 H seed e.1 = id) ∧
        (removedKeys evs).Nodup ∧
        evs.length ≤ m.size + maxSlices := by
  refine ⟨fun hseed => ?_, fun st₀ hst₀ => ?_⟩
  · obtain ⟨diff, hd, -⟩ := Iblt.new_ok H junk theirs ours
    obtain ⟨pool, hp, -⟩ := IbltPool.new_ok (H := H) hseed hids
    exact ⟨_, diff, pool, hd, hp, rfl⟩
  have h₀ := Peeled.start hids hsl hst₀
  refine ⟨h₀.returns hsize, fun evs st hrun => ?_⟩
  have h : Peeled H (m.entries.map fun e => txid48 H seed e.1) evs st :=
    hrun.invariant (Peeled H (m.entries.map fun e => txid48 H seed e.1))
      (fun st hst => by rw [hst]; exact h₀) fun evs st ev st' h hturn => h.turn hsize hturn
  have hsize₀ : st₀.txByTxid48.size = m.size := by
    have hlen := h₀.ids.length_eq
    rw [List.length_map] at hlen
    simpa [removedIds, UnorderedMap.keys, UnorderedMap.size] using hlen.symm
  refine ⟨h.step hsize, ?_, fun id hid => ?_, h.keys.nodup_iff.mp (sliceKeys_nodup _), ?_⟩
  · exact (List.nodup_append.mp (h.ids.nodup_iff.mp hids)).1
  · exact List.mem_map.mp (h.ids.mem_iff.mpr (List.mem_append_left _ hid))
  · refine hrun.length_le PeelState.todo (fun st hst => ?_) fun st ev st' hturn =>
      todo_lt_of_peelBody hturn.2
    rw [hst, PeelState.todo, hsize₀]
    omega

theorem peeling_stops_allTxs : ∃ (theirs ours : RawIblt 6) (st₀ st : PeelState 6) (s : TxSlice),
    ofTxmap headHashes 6 1 allTxs = .ok theirs ∧ ofTxmap headHashes 6 1 rightTxs = .ok ours ∧
      PeelStart headHashes (fun _ => true) theirs ours 1 rightTxs st₀ ∧
      History (· = st₀) (PeelEvent headHashes) [(.THEIRS, s)] st ∧
      (∃ next, peelStep headHashes st = .ok next) ∧ ∃ result, peel headHashes st₀ = .ok result := by
  obtain ⟨theirs, ours, st₀, st, s, htheirs, hours, hst₀, hnext, hbody, -⟩ := allTxs_peel
  obtain ⟨hresult, hstops⟩ := (peeling_stops headHashes (show 0 < 6 by decide) (fun _ => true)
    theirs ours 1 rightTxs (headTxs_distinctIds _ 1) (headTxs_sliceable _)).2 st₀ hst₀
  have hrun : History (· = st₀) (PeelEvent headHashes) [(.THEIRS, s)] st :=
    History.next (l := []) (.start rfl) ⟨hnext, hbody⟩
  exact ⟨theirs, ours, st₀, st, s, htheirs, hours, hst₀, hrun, (hstops _ st hrun).1, hresult⟩

end BitcoinIblt
