import BitcoinIblt.RecoverBlock

/-!
# The comparison with the block

The last part of `recover_block` erases the txids of the recovered transactions and then those of
the pool from a copy of the block, and wants every erasure to find its key and nothing to be left.
This is to say that the two lists of txids together are the keys of the block, each once
(`compareBlock_iff`): a txid listed twice, one that the block does not have and one that is missing
all make it return `false`, wherever the slices came from (`recoverBlock_exact`).
-/

namespace BitcoinIblt

open Transition

variable (H : Hashes) {size : ℕ}

/-- Erasing a list of txids succeeds when these are distinct keys, and leaves the other keys. -/
theorem eraseAll_eq_some_iff {block : Txmap} {txids rest : List BitcoinTxid} :
    (∃ block', eraseAll block txids = some block' ∧ block'.keys.Perm rest) ↔
      block.keys.Perm (txids ++ rest) := by
  induction txids generalizing block with
  | nil =>
    show (∃ block', some block = some block' ∧ block'.keys.Perm rest) ↔ block.keys.Perm rest
    simp
  | cons txid txids ih =>
    rw [eraseAll]
    by_cases hfound : (block.erase txid).2 = true
    · obtain ⟨tx, htx⟩ := UnorderedMap.erase_snd.mp hfound
      have hperm : block.keys.Perm (txid :: (block.erase txid).1.keys) :=
        (UnorderedMap.erase_perm htx).map Prod.fst
      rw [if_pos hfound, ih, List.cons_append]
      exact ⟨fun h => hperm.trans (h.cons txid), fun h => (hperm.symm.trans h).cons_inv⟩
    · rw [if_neg hfound]
      refine iff_of_false (fun ⟨_, h, _⟩ => by cases h) fun h => hfound ?_
      have hmem : txid ∈ block.keys := h.mem_iff.mpr List.mem_cons_self
      exact UnorderedMap.erase_snd.mpr (UnorderedMap.mem_keys_iff.mp hmem)

/-- The txids of what was recovered and of what is left of the pool. -/
def reconstructed (recovered : List BitcoinTx) (txByTxid48 : UnorderedMap Txid48 Tx) :
    List BitcoinTxid :=
  recovered.map (BitcoinTx.txid H) ++ txByTxid48.entries.map fun p => p.2.txid

/-- The comparison finds out whether the reconstruction lists the keys of the block, each once. -/
theorem compareBlock_iff (recovered : List BitcoinTx) (txByTxid48 : UnorderedMap Txid48 Tx)
    (block : Txmap) :
    compareBlock H recovered txByTxid48 block = true ↔
      block.keys.Perm (reconstructed H recovered txByTxid48) := by
  have hnil : ∀ b : Txmap, b.entries.isEmpty = true ↔ b.keys.Perm [] := by
    intro b
    rw [List.isEmpty_iff, List.perm_nil, UnorderedMap.keys, List.map_eq_nil_iff]
  unfold compareBlock
  rw [reconstructed, ← eraseAll_eq_some_iff]
  cases h₁ : eraseAll block (recovered.map (BitcoinTx.txid H)) with
  | none => simp
  | some block₁ =>
    have h₂ : (∃ block', eraseAll block₁ (txByTxid48.entries.map fun p => p.2.txid) = some block' ∧
        block'.keys.Perm []) ↔ block₁.keys.Perm (txByTxid48.entries.map fun p => p.2.txid) := by
      rw [eraseAll_eq_some_iff, List.append_nil]
    simp only [Option.some.injEq, exists_eq_left', ← h₂]
    cases eraseAll block₁ (txByTxid48.entries.map fun p => p.2.txid) with
    | none => simp
    | some block₂ => simp [hnil]

/-- What `recover_block` does once it has a difference, a pool and the end of the peeling loop. -/
theorem recoverBlock_of_peel {A : Allocator} {size' : ℕ} {junk : BucketType → Bool}
    {theirs : RawIblt size} {ours : RawIblt size'} {seed : U64} {mempool block : Txmap}
    {diff : Iblt size} {pool : IbltPool} (hd : Iblt.new H junk theirs ours = .ok diff)
    (hp : IbltPool.new H seed mempool = .ok pool) {st : PeelState size}
    (hpeel : peel H ⟨diff, pool.txByTxid48, OrdSet.empty⟩ = .ok (some st)) :
    recoverBlock H A junk theirs ours seed mempool block = finish H A st block := by
  rw [recoverBlock, hd, ok_bind, hp, ok_bind, hpeel, ok_bind]

/-- A run that gets to the comparison: the peeling loop ends in `st` with an empty difference, and
the assembly loop in `asm` with nothing left over. -/
structure ReachesComparison (A : Allocator) {size' : ℕ} (junk : BucketType → Bool)
    (theirs : RawIblt size) (ours : RawIblt size') (seed : U64) (mempool : Txmap)
    (st : PeelState size) (asm : AsmState) : Prop where
  peeled : ∃ diff pool, Iblt.new H junk theirs ours = .ok diff ∧
    IbltPool.new H seed mempool = .ok pool ∧
    peel H ⟨diff, pool.txByTxid48, OrdSet.empty⟩ = .ok (some st)
  empty : st.diff.empty = true
  assembled : asmLoop H A st.slices.toList ⟨0, [], []⟩ = .ok (some asm)
  complete : asm.count = 0

variable {H} in
/-- Such a run ends with the result of the comparison. -/
theorem ReachesComparison.result {A : Allocator} {size' : ℕ} {junk : BucketType → Bool}
    {theirs : RawIblt size} {ours : RawIblt size'} {seed : U64} {mempool : Txmap}
    {st : PeelState size} {asm : AsmState}
    (h : ReachesComparison H A junk theirs ours seed mempool st asm) (block : Txmap) :
    recoverBlock H A junk theirs ours seed mempool block =
      .ok (compareBlock H asm.recovered st.txByTxid48 block) := by
  obtain ⟨diff, pool, hd, hp, hpeel⟩ := h.peeled
  rw [recoverBlock_of_peel H hd hp hpeel, finish, if_pos h.empty, h.assembled, ok_bind]
  simp only [h.complete, ne_eq, not_true_eq_false, if_false]
  rfl

/-- Only a run that gets to the comparison returns `true`. -/
theorem reachesComparison_of_true {A : Allocator} {size' : ℕ} {junk : BucketType → Bool}
    {theirs : RawIblt size} {ours : RawIblt size'} {seed : U64} {mempool block : Txmap}
    (h : recoverBlock H A junk theirs ours seed mempool block = .ok true) :
    ∃ st asm, ReachesComparison H A junk theirs ours seed mempool st asm := by
  unfold recoverBlock at h
  obtain ⟨diff, hd, h⟩ := of_bind_ok h
  obtain ⟨pool, hp, h⟩ := of_bind_ok h
  obtain ⟨r, hpeel, h⟩ := of_bind_ok h
  cases r with
  | none => cases h
  | some st =>
    simp only [finish] at h
    split_ifs at h with hempty
    · obtain ⟨r, hasm, h⟩ := of_bind_ok h
      cases r with
      | none => cases h
      | some asm =>
        simp only at h
        split_ifs at h with hcount
        · cases h
        · exact ⟨st, asm, ⟨diff, pool, hd, hp, hpeel⟩, hempty, hasm, not_not.mp hcount⟩
    · cases h

/-- **A decoded block is the block.** Whatever the sender's table, `recover_block` returns `true`
only if the txids of the recovered transactions and of those left in the pool list the keys of the
block exactly once each. Every run that gets to the comparison with another reconstruction returns
`false`. -/
theorem recoverBlock_exact (H : Hashes) (A : Allocator) {size size' : ℕ}
    (junk : BucketType → Bool) (theirs : RawIblt size) (ours : RawIblt size') (seed : U64)
    (mempool block : Txmap) :
    (recoverBlock H A junk theirs ours seed mempool block = .ok true →
      ∃ st asm, ReachesComparison H A junk theirs ours seed mempool st asm ∧
        block.keys.Perm (reconstructed H asm.recovered st.txByTxid48)) ∧
    ∀ st asm, ReachesComparison H A junk theirs ours seed mempool st asm →
      ¬ block.keys.Perm (reconstructed H asm.recovered st.txByTxid48) →
      recoverBlock H A junk theirs ours seed mempool block = .ok false := by
  refine ⟨fun h => ?_, fun st asm hrun hne => ?_⟩
  · obtain ⟨st, asm, hrun⟩ := reachesComparison_of_true H h
    refine ⟨st, asm, hrun, (compareBlock_iff H _ _ _).mp ?_⟩
    rw [hrun.result block] at h
    exact Except.ok.inj h
  · rw [hrun.result block]
    congr 1
    rw [← Bool.not_eq_true, compareBlock_iff]
    exact hne

end BitcoinIblt
