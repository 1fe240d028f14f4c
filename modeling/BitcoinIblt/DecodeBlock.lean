import BitcoinIblt.CandidateSet
import BitcoinIblt.GroupCheck
import BitcoinIblt.RecoverOrder
import BitcoinIblt.WireMessage

/-!
# The decoder of the full protocol

`decode_block` of `iblt-test.cpp`: read the message, find the candidates among the own mempool, take
their table from the sender's, peel the difference and check that the slices that were recovered
make up whole transactions. The loop is the one of `recover_block`, but counts what it does
(`countedLoop_forget`), and the slices are only checked, not rebuilt.

The message chooses the seed and the size of the table. `decodeBlock_ends` says what each of them
can do to the decoder.
-/

namespace BitcoinIblt

open RawIblt Transition

variable (H : Hashes) {size : ℕ}

/-! ## The code -/

/-- The counters that `decode_block` returns by reference. -/
structure DecodeCounts where
  slicesRecovered : ℕ
  slicesDiscarded : ℕ
  txsDiscarded : ℕ

/-- The variables of the peeling loop, and the counters. -/
structure CountedState (size : ℕ) where
  loop : PeelState size
  counts : DecodeCounts

/-- How a turn of the loop ends. -/
inductive CountedNext (size : ℕ)
  | done
  | fail
  | again (st : CountedState size)

/-- The body of the loop for a slice `s` that `next` says is `t`. -/
def countedBody (st : CountedState size) (t : BucketType) (s : TxSlice) :
    Run (CountedNext size) :=
  match t with
  | .OURS =>
    match st.loop.txByTxid48.find s.getTxid48 with
    | none => .ok .fail
    | some tx => do
      let (diff, n) ← st.loop.diff.removeOurTx H tx.btx s.getTxid48
      let txByTxid48 := (st.loop.txByTxid48.erase s.getTxid48).1
      return .again ⟨{ st.loop with diff, txByTxid48 },
        { st.counts with
          slicesDiscarded := st.counts.slicesDiscarded + n
          txsDiscarded := st.counts.txsDiscarded + 1 }⟩
  | .THEIRS => do
    let (slices, inserted) := st.loop.slices.insert s
    if inserted then
      let diff ← st.loop.diff.removeTheirSlice H s
      return .again ⟨{ st.loop with diff, slices },
        { st.counts with slicesRecovered := st.counts.slicesRecovered + 1 }⟩
    else return .fail
  | .NEITHER => .ok .done

def countedStep (st : CountedState size) : Run (CountedNext size) := do
  match ← st.loop.diff.next with
  | none => return .done
  | some (t, s) => countedBody H st t s

variable {H}

/-- What the turn of `recover_block` would be. -/
def CountedNext.forget : CountedNext size → PeelNext size
  | .done => .done
  | .fail => .fail
  | .again st => .again st.loop

theorem countedBody_forget (st : CountedState size) (t : BucketType) (s : TxSlice) :
    (countedBody H st t s).map CountedNext.forget = peelBody H st.loop t s := by
  unfold countedBody peelBody
  cases t with
  | OURS =>
    cases hf : st.loop.txByTxid48.find s.getTxid48 with
    | none => rfl
    | some tx =>
      have herase : (st.loop.txByTxid48.erase s.getTxid48).2 = true :=
        UnorderedMap.erase_snd.mpr ⟨tx, UnorderedMap.find_eq_some_iff.mp hf⟩
      dsimp only
      cases hd : st.loop.diff.removeOurTx H tx.btx s.getTxid48 with
      | error f => rfl
      | ok r =>
        simp only [ok_bind, herase, if_true]
        rfl
  | THEIRS =>
    dsimp only
    split_ifs
    · cases st.loop.diff.removeTheirSlice H s with
      | error f => rfl
      | ok diff => rfl
    · rfl
  | NEITHER => rfl

theorem countedStep_forget (st : CountedState size) :
    (countedStep H st).map CountedNext.forget = peelStep H st.loop := by
  unfold countedStep peelStep
  cases st.loop.diff.next with
  | error f => rfl
  | ok next =>
    cases next with
    | none => rfl
    | some p => exact countedBody_forget st p.1 p.2

theorem countedStep_again {st st' : CountedState size}
    (h : countedStep H st = .ok (.again st')) : st'.loop.todo < st.loop.todo := by
  have hstep : peelStep H st.loop = .ok (.again st'.loop) := by
    rw [← countedStep_forget, h]
    rfl
  obtain ⟨t, s, -, hbody⟩ := peelStep_again hstep
  exact todo_lt_of_peelBody hbody

variable (H)

/-- The loop: the state in which it ends, and whether it has come to its end. -/
def countedLoop (st : CountedState size) : Run (Bool × CountedState size) :=
  match _h : countedStep H st with
  | .error f => .error f
  | .ok .done => .ok (true, st)
  | .ok .fail => .ok (false, st)
  | .ok (.again st') => countedLoop st'
termination_by st.loop.todo
decreasing_by exact countedStep_again _h

/-- What follows the loop. -/
def checkSlices (st : PeelState size) : Run Bool :=
  if st.diff.empty then do
    match ← checkLoop H st.slices.toList ⟨0, [], []⟩ with
    | none => return false
    | some asm => return asm.count = 0
  else return false

/-- `decode_block` behind `wire_decode`. -/
def decodeMessage (junk : BucketType → Bool) (mp : Txmap) (m : WireMessage) :
    Run (Bool × DecodeCounts) := do
  let pool ← IbltPool.new H m.seed mp
  -- the candidates are found in the same pool
  let candidates ← decodeCandidates H m.seed m.minFeePerByte m.added m.removed mp
  let ours ← RawIblt.ofSet H m.size m.seed candidates.toList
  let diff ← Iblt.new H junk m.iblt ours
  let (ended, st) ← countedLoop H ⟨⟨diff, pool.txByTxid48, OrdSet.empty⟩, ⟨0, 0, 0⟩⟩
  if ended then
    let complete ← checkSlices H st.loop
    return (complete, st.counts)
  else return (false, st.counts)

def decodeBlock (A : Allocator) (past : U8) (junk : BucketType → Bool) (mp : Txmap)
    (incoming : List U8) : Run (Bool × DecodeCounts) := do
  let m ← wireDecode A past incoming TxbitsSet.empty TxbitsSet.empty
  decodeMessage H junk mp m

/-! ## Counting -/

variable {H}

/-- One turn of the loop, and the rest of it. -/
theorem countedLoop_eq (st : CountedState size) : countedLoop H st = countedStep H st >>= fun
    | .done => .ok (true, st)
    | .fail => .ok (false, st)
    | .again st' => countedLoop H st' := by
  rw [countedLoop]
  split
  · rename_i f hstep
    simp only [hstep]
    rfl
  · rename_i hstep
    simp only [hstep, ok_bind]
  · rename_i hstep
    simp only [hstep, ok_bind]
  · rename_i st' hstep
    simp only [hstep, ok_bind]

/-- What the loop of `recover_block` would return. -/
def forgetEnd (r : Bool × CountedState size) : Option (PeelState size) :=
  if r.1 then some r.2.loop else none

/-- **The loop is that of `recover_block`**, whatever it counts. -/
theorem countedLoop_forget (st : CountedState size) :
    (countedLoop H st).map forgetEnd = peel H st.loop := by
  induction hn : st.loop.todo using Nat.strong_induction_on generalizing st with
  | _ n ih =>
    subst hn
    rw [countedLoop_eq, peel_eq, ← countedStep_forget]
    cases hstep : countedStep H st with
    | error f => rfl
    | ok next =>
      cases next with
      | done => rfl
      | fail => rfl
      | again st' => exact ih _ (countedStep_again hstep) st' rfl

variable (H) in
/-- The counters say what the loop has done since the pool was `entries`. -/
structure Counted (entries : List (Txid48 × Tx)) (st : CountedState size) : Prop where
  slicesRecovered : st.counts.slicesRecovered = st.loop.slices.toList.length
  txsDiscarded : st.counts.txsDiscarded + st.loop.txByTxid48.entries.length = entries.length
  slicesDiscarded : st.counts.slicesDiscarded +
    (poolSlices H st.loop.txByTxid48.entries).length = (poolSlices H entries).length

theorem of_removeOurTx {d d' : Iblt size} {btx : BitcoinTx} {id : Txid48} {n : ℕ}
    (h : d.removeOurTx H btx id = .ok (d', n)) : n = (slicesOf H btx id).length := by
  obtain ⟨v, hv, h⟩ := of_bind_ok h
  obtain ⟨d₁, -, h⟩ := of_bind_ok h
  cases h
  unfold slicesOf
  rw [hv]
  rfl

theorem Counted.turn {entries : List (Txid48 × Tx)} {st st' : CountedState size}
    (h : Counted H entries st) (hstep : countedStep H st = .ok (.again st')) :
    Counted H entries st' := by
  obtain ⟨next, -, hbody⟩ := of_bind_ok hstep
  cases next with
  | none => cases hbody
  | some p =>
    obtain ⟨t, s⟩ := p
    have hrec := h.slicesRecovered
    have htxs := h.txsDiscarded
    have hslices := h.slicesDiscarded
    unfold countedBody at hbody
    cases t with
    | OURS =>
      cases hf : st.loop.txByTxid48.find s.getTxid48 with
      | none =>
        simp only [hf] at hbody
        cases hbody
      | some tx =>
        simp only [hf] at hbody
        obtain ⟨⟨diff, n⟩, hr, hbody⟩ := of_bind_ok hbody
        cases hbody
        have hperm := UnorderedMap.erase_perm (UnorderedMap.find_eq_some_iff.mp hf)
        have hlen := hperm.length_eq
        have hpool := (hperm.flatMap_right fun p => slicesOf H p.2.btx p.1).length_eq
        rw [List.flatMap_cons, List.length_append, ← of_removeOurTx hr] at hpool
        refine ⟨hrec, ?_, ?_⟩
        · rw [List.length_cons] at hlen
          dsimp only
          omega
        · unfold poolSlices at hslices ⊢
          dsimp only at hpool ⊢
          omega
    | THEIRS =>
      dsimp only at hbody
      split_ifs at hbody with hins
      · obtain ⟨diff, -, hbody⟩ := of_bind_ok hbody
        cases hbody
        have hlen := OrdSet.length_insert hins
        exact ⟨by dsimp only; omega, htxs, hslices⟩
      · cases hbody
    | NEITHER => cases hbody

theorem Counted.loop {entries : List (Txid48 × Tx)} {st : CountedState size}
    (h : Counted H entries st) {r : Bool × CountedState size}
    (hrun : countedLoop H st = .ok r) : Counted H entries r.2 := by
  induction hn : st.loop.todo using Nat.strong_induction_on generalizing st with
  | _ n ih =>
    subst hn
    rw [countedLoop_eq] at hrun
    obtain ⟨next, hstep, hrun⟩ := of_bind_ok hrun
    cases next with
    | done =>
      cases hrun
      exact h
    | fail =>
      cases hrun
      exact h
    | again st' => exact ih _ (countedStep_again hstep) (h.turn hstep) hrun rfl

theorem counted_start (diff : Iblt size) (pool : UnorderedMap Txid48 Tx) :
    Counted H pool.entries ⟨⟨diff, pool, OrdSet.empty⟩, ⟨0, 0, 0⟩⟩ :=
  ⟨rfl, Nat.zero_add _, Nat.zero_add _⟩

/-! ## How it ends -/

/-- The loop ends or gives up when that of `recover_block` does. -/
theorem countedLoop_returns (st : CountedState size) {result : Option (PeelState size)}
    (h : peel H st.loop = .ok result) :
    ∃ r, countedLoop H st = .ok r ∧ forgetEnd r = result := by
  rw [← countedLoop_forget] at h
  cases hrun : countedLoop H st with
  | error f =>
    rw [hrun] at h
    cases h
  | ok r =>
    rw [hrun] at h
    cases h
    exact ⟨r, rfl, rfl⟩

theorem checkSlices_returns (H : Hashes) (st : PeelState size) : ∃ b, checkSlices H st = .ok b := by
  unfold checkSlices
  split_ifs
  · obtain ⟨r, hr⟩ := checkLoop_returns (asmInv_start (H := H)) st.slices.toList
    rw [hr, ok_bind]
    cases r with
    | none => exact ⟨false, rfl⟩
    | some asm => exact ⟨_, rfl⟩
  · exact ⟨false, rfl⟩

/-- The pool cannot be made under the seed zero, nor with a clash of two ids. -/
theorem pool_fails {mp : Txmap} {seed : U64} :
    (seed = 0 → mp.entries ≠ [] → IbltPool.new H seed mp = .error .assertion) ∧
      (seed ≠ 0 → ¬ mp.DistinctIds H seed → IbltPool.new H seed mp = .error .shiftTooFar) := by
  constructor
  · intro hseed hne
    obtain ⟨e, l, hl⟩ := List.exists_cons_of_ne_nil hne
    unfold IbltPool.new
    rw [hl, List.foldlM_cons, Txid48.new, if_pos hseed]
    rfl
  · intro hseed hids
    unfold Txmap.DistinctIds at hids
    rw [← IbltPool.ids_poolEntry] at hids
    rw [IbltPool.new_eq_addAll hseed]
    exact IbltPool.files_empty.addAll_clash List.nodup_nil hids

/-- A table without buckets takes no transaction. -/
theorem ofSet_size_zero (hsize : size = 0) {seed : U64} (hseed : seed ≠ 0) {txs : List Tx}
    (hne : txs ≠ []) (hsl : ∀ t ∈ txs, Sliceable t.btx) :
    ofSet H size seed txs = .error .divideByZero := by
  subst hsize
  obtain ⟨t, rest, rfl⟩ := List.exists_cons_of_ne_nil hne
  have ht : Sliceable t.btx := hsl t List.mem_cons_self
  obtain ⟨s, tail, hv⟩ := List.exists_cons_of_ne_nil
    (slicesOf_ne_nil (H := H) (txid48 H seed (t.btx.txid H)) ht)
  have hfirst : insertTx H seed (blank 0) (t.btx.txid H) t.btx = .error .divideByZero := by
    unfold insertTx Txid48.new
    rw [if_neg hseed, ok_bind, sliceTx_eq _ ht, ok_bind, hv]
    rfl
  unfold ofSet
  rw [List.foldlM_cons, hfirst]
  rfl

/-- The parts of `decode_block`, where each of them returns. -/
theorem decodeMessage_ok {junk : BucketType → Bool} {mp : Txmap} {m : WireMessage}
    {pool : IbltPool} {candidates : UnorderedSet Tx} {ours : RawIblt m.size} {diff : Iblt m.size}
    {ended : Bool} {st : CountedState m.size} {b : Bool} (hp : IbltPool.new H m.seed mp = .ok pool)
    (hcand : decodeCandidates H m.seed m.minFeePerByte m.added m.removed mp = .ok candidates)
    (hours : ofSet H m.size m.seed candidates.toList = .ok ours)
    (hdiff : Iblt.new H junk m.iblt ours = .ok diff)
    (hrun : countedLoop H ⟨⟨diff, pool.txByTxid48, OrdSet.empty⟩, ⟨0, 0, 0⟩⟩ = .ok (ended, st))
    (hcheck : checkSlices H st.loop = .ok b) :
    decodeMessage H junk mp m = .ok (ended && b, st.counts) := by
  unfold decodeMessage
  rw [hp, ok_bind, hcand, ok_bind, hours, ok_bind, hdiff, ok_bind, hrun, ok_bind]
  cases ended with
  | true =>
    dsimp only
    rw [if_pos rfl, hcheck]
    rfl
  | false => rfl

/-- Behind its tables `decode_block` returns. -/
theorem decodeMessage_returns {junk : BucketType → Bool} {mp : Txmap} {m : WireMessage}
    {pool : IbltPool} {candidates : UnorderedSet Tx} {ours : RawIblt m.size}
    (hp : IbltPool.new H m.seed mp = .ok pool) (hh : pool.Holds H m.seed mp.entries)
    (hcand : decodeCandidates H m.seed m.minFeePerByte m.added m.removed mp = .ok candidates)
    (hours : ofSet H m.size m.seed candidates.toList = .ok ours)
    (hids : mp.DistinctIds H m.seed) (hsl : ∀ e ∈ mp.entries, Sliceable e.2.btx) :
    ∃ b counts, decodeMessage H junk mp m = .ok (b, counts) ∧
      counts.txsDiscarded ≤ mp.entries.length ∧
      counts.slicesDiscarded ≤ (entrySlices H m.seed mp.entries).length := by
  obtain ⟨diff, hd, -⟩ := Iblt.new_ok H junk m.iblt ours
  have hstart : PeelStart H junk m.iblt ours m.seed mp
      ⟨diff, pool.txByTxid48, OrdSet.empty⟩ := ⟨diff, pool, hd, hp, rfl⟩
  obtain ⟨result, hpeel⟩ := hstart.returns hids hsl
  obtain ⟨⟨ended, st⟩, hrun, -⟩ := countedLoop_returns
    ⟨⟨diff, pool.txByTxid48, OrdSet.empty⟩, ⟨0, 0, 0⟩⟩ hpeel
  have hcounted := (counted_start diff pool.txByTxid48).loop hrun
  obtain ⟨b, hb⟩ := checkSlices_returns H st.loop
  have htxs : st.counts.txsDiscarded + st.loop.txByTxid48.entries.length =
      pool.txByTxid48.entries.length := hcounted.txsDiscarded
  have hslices : st.counts.slicesDiscarded + (poolSlices H st.loop.txByTxid48.entries).length =
      (poolSlices H pool.txByTxid48.entries).length := hcounted.slicesDiscarded
  have hpool : (poolSlices H pool.txByTxid48.entries).length =
      (entrySlices H m.seed mp.entries).length := by
    rw [← poolSlices_map]
    exact (hh.byId.flatMap_right _).length_eq
  rw [hh.byId.length_eq, List.length_map] at htxs
  exact ⟨ended && b, st.counts, decodeMessage_ok hp hcand hours hd hrun hb, by omega, by omega⟩

/-- Behind the pool, a message that was read makes `decode_block` return, but for a table without
buckets against which there is a candidate. -/
theorem decodeMessage_ends (junk : BucketType → Bool) {mp : Txmap} {m : WireMessage}
    (hkeyed : mp.Keyed) (hsl : ∀ e ∈ mp.entries, Sliceable e.2.btx)
    (hseed : m.seed ≠ 0 ∨ mp.entries = []) (hids : mp.DistinctIds H m.seed) :
    ∃ candidates, decodeCandidates H m.seed m.minFeePerByte m.added m.removed mp =
        .ok candidates ∧
      (m.size = 0 → candidates.toList ≠ [] →
        decodeMessage H junk mp m = .error .divideByZero) ∧
      (0 < m.size ∨ candidates.toList = [] → ∃ b counts,
        decodeMessage H junk mp m = .ok (b, counts) ∧
        counts.txsDiscarded ≤ mp.entries.length ∧
        counts.slicesDiscarded ≤ (entrySlices H m.seed mp.entries).length) := by
  obtain ⟨pool, hp, hh⟩ := IbltPool.new_ok_or_nil hseed hids
  obtain ⟨candidates, hcand, hmem⟩ :=
    decodeCandidates_of_pool hp hh m.minFeePerByte hkeyed m.added m.removed
  have hin : ∀ t ∈ candidates.toList, (t.txid, t) ∈ mp.entries :=
    fun t ht => ((hmem t).mp (UnorderedSet.mem_def.mpr ht)).1
  have hcsl : ∀ t ∈ candidates.toList, Sliceable t.btx :=
    fun t ht => hsl (t.txid, t) (hin t ht)
  -- where there is a candidate, the seed is not zero
  have hseed' : candidates.toList ≠ [] → m.seed ≠ 0 := by
    intro hne
    obtain ⟨t, ht⟩ := List.exists_mem_of_ne_nil _ hne
    exact hseed.resolve_right (List.ne_nil_of_mem (hin t ht))
  refine ⟨candidates, hcand, fun hzero hne => ?_, fun hsize => ?_⟩
  · unfold decodeMessage
    rw [hp, ok_bind, hcand, ok_bind, ofSet_size_zero hzero (hseed' hne) hne hcsl]
    rfl
  · by_cases hne : candidates.toList = []
    · have hours : ofSet H m.size m.seed candidates.toList = .ok (blank m.size) := by
        rw [hne]
        rfl
      exact decodeMessage_returns hp hh hcand hours hids hsl
    · obtain ⟨ours, hours, -⟩ := ofSet_ok (H := H) (hsize.resolve_right hne) (hseed' hne) hcsl
      exact decodeMessage_returns hp hh hcand hours hids hsl

/-- **What a message can do.** `decode_block` throws what `wire_decode` throws. A message that is
read aborts it if the seed is zero and there is a mempool, and overruns the tree if two ids clash
under the seed. Behind these, it divides by zero if the table has no buckets and there are
candidates. Any other message makes it return, also under the seed zero if the mempool is empty and
with a table without buckets if nothing is a candidate; it has then not discarded more than the
mempool holds. -/
theorem decodeBlock_ends (H : Hashes) (A : Allocator) (past : U8) (junk : BucketType → Bool)
    {mp : Txmap} (hkeyed : mp.Keyed) (hsl : ∀ e ∈ mp.entries, Sliceable e.2.btx)
    (incoming : List U8) :
    (∃ f, wireDecode A past incoming TxbitsSet.empty TxbitsSet.empty = .error f ∧
      decodeBlock H A past junk mp incoming = .error f) ∨
    ∃ m, wireDecode A past incoming TxbitsSet.empty TxbitsSet.empty = .ok m ∧
      (m.seed = 0 → mp.entries ≠ [] →
        decodeBlock H A past junk mp incoming = .error .assertion) ∧
      (m.seed ≠ 0 → ¬ mp.DistinctIds H m.seed →
        decodeBlock H A past junk mp incoming = .error .shiftTooFar) ∧
      (m.seed ≠ 0 ∨ mp.entries = [] → mp.DistinctIds H m.seed → ∃ candidates,
        decodeCandidates H m.seed m.minFeePerByte m.added m.removed mp = .ok candidates ∧
        (m.size = 0 → candidates.toList ≠ [] →
          decodeBlock H A past junk mp incoming = .error .divideByZero) ∧
        (0 < m.size ∨ candidates.toList = [] → ∃ b counts,
          decodeBlock H A past junk mp incoming = .ok (b, counts) ∧
          counts.txsDiscarded ≤ mp.entries.length ∧
          counts.slicesDiscarded ≤ (entrySlices H m.seed mp.entries).length)) := by
  unfold decodeBlock
  cases hread : wireDecode A past incoming TxbitsSet.empty TxbitsSet.empty with
  | error f => exact Or.inl ⟨f, rfl, rfl⟩
  | ok m =>
    simp only [ok_bind]
    refine Or.inr ⟨m, rfl, fun hseed hne => ?_, fun hseed hids => ?_,
      decodeMessage_ends junk hkeyed hsl⟩
    · unfold decodeMessage
      rw [pool_fails.1 hseed hne]
      rfl
    · unfold decodeMessage
      rw [pool_fails.2 hseed hids]
      rfl

/-- A message under the seed zero. -/
def zeroSeedMessage : WireMessage :=
  ⟨BitcoinTx.blank, 0, 0, TxbitsSet.empty, TxbitsSet.empty, 1, RawIblt.blank 1⟩

/-- It is read, and aborts a decoder that has a transaction; one that has none returns. -/
theorem decodeBlock_ends_zeroSeed : ∃ enc, wireEncode zeroSeedMessage = .ok enc ∧
    decodeBlock zeroHashes (fun _ _ => true) 0xFF (fun _ => true) oneTx enc =
      .error .assertion ∧
    ∃ b counts, decodeBlock zeroHashes (fun _ _ => true) 0xFF (fun _ => true)
      UnorderedMap.empty enc = .ok (b, counts) := by
  have hsend : zeroSeedMessage.Sendable :=
    ⟨empty_wellFormed, empty_wellFormed, by decide, by decide⟩
  obtain ⟨added, removed, henc⟩ := WireMessage.wireEncode_eq _ hsend
  obtain ⟨m, hm, hsame⟩ := WireMessage.decode_whole (A := fun _ _ => true) (fun _ _ => rfl) 0xFF
    TxbitsSet.empty TxbitsSet.empty hsend added removed
  refine ⟨_, henc, ?_, ?_⟩
  · rcases decodeBlock_ends zeroHashes (fun _ _ => true) 0xFF (fun _ => true) oneTx_keyed
      oneTx_sliceable _ with ⟨f, hf, -⟩ | ⟨m', hm', hzero, -⟩
    · exact nomatch hf.symm.trans hm
    · obtain rfl : m' = m := Except.ok.inj (hm'.symm.trans hm)
      exact hzero hsame.seed (List.cons_ne_nil _ _)
  · have hkeyed : Txmap.Keyed UnorderedMap.empty := nofun
    rcases decodeBlock_ends zeroHashes (fun _ _ => true) 0xFF (fun _ => true) hkeyed nofun _ with
      ⟨f, hf, -⟩ | ⟨m', hm', -, -, hreturns⟩
    · exact nomatch hf.symm.trans hm
    · obtain rfl : m' = m := Except.ok.inj (hm'.symm.trans hm)
      have hsize : m'.size = 1 := congrArg Sigma.fst hsame.table
      obtain ⟨candidates, -, -, hends⟩ := hreturns (Or.inr rfl) List.nodup_nil
      obtain ⟨b, counts, hrun, -⟩ := hends (Or.inl (by omega))
      exact ⟨b, counts, hrun⟩

end BitcoinIblt
