import BitcoinIblt.FullProtocol
import BitcoinIblt.Lib.Bisect

/-!
# The least table that decodes

`min_decode` of `iblt-test.cpp` looks for the least number of buckets with which a peer can decode a
block, by bisection up to 16MB. Each try is a whole exchange: the table, the message, the decoder.

That a table decodes need not be monotone in its size, since another number of buckets sends the
slices to other buckets. So what is found is a border (`minDecode_border`): it decodes, and with one
bucket less it does not. "Complete failure" is reported just if the seventeen sizes `2 ^ 18 - 2 ^ k`
fail, though others may decode.
-/

namespace BitcoinIblt

open Bisect RawIblt

variable (H : Hashes) (A : Allocator)

/-! ## The code -/

/-- "Try up to 16MB worth of IBLT." -/
def maxPossible : ℕ := 16 * 1024 * 1024 / ibltSize

/-- The size that is returned, and what is returned by reference. -/
structure MinDecoded where
  dataSize : ℕ
  ibltSlices : ℕ
  counts : DecodeCounts

/-- What `min_decode` returns when no try has succeeded. -/
def MinDecoded.failure : MinDecoded := ⟨16 * 1024 * 1024, 0, ⟨0, 0, 0⟩⟩

/-- What does not change from try to try. Each try reads another byte past the end of its message,
and starts with other uninitialized flags. -/
structure DecodeTask where
  past : ℕ → U8
  junk : ℕ → BucketType → Bool
  block : UnorderedSet Tx
  added : TxbitsSet
  removed : TxbitsSet
  minFeePerByte : U64
  coinbase : BitcoinTx
  mempool : Txmap
  seed : U64

/-- A try with `num` buckets. -/
def tryBuckets (task : DecodeTask) (num : ℕ) : Run (Option MinDecoded) := do
  let riblt ← RawIblt.ofSet H num task.seed task.block.toList
  let data ← wireEncode
    ⟨task.coinbase, task.minFeePerByte, task.seed, task.added, task.removed, num, riblt⟩
  let (complete, counts) ← decodeBlock H A (task.past num) (task.junk num) task.mempool data
  if complete then return some ⟨data.length, num, counts⟩
  else return none

def minDecode (task : DecodeTask) : Run MinDecoded := do
  -- "Complete failure?"
  let w ← search (tryBuckets H A task) (fun minBuckets => minBuckets = maxPossible - 1)
    ⟨1, maxPossible, by decide, none⟩
  return w.found.getD MinDecoded.failure

/-! ## A try -/

variable {H} {A} {seed : U64} {M₁ M₂ : Txmap} {block : UnorderedSet Tx}

/-- The try accepts. -/
def Accepts (H : Hashes) (A : Allocator) (task : DecodeTask) (num : ℕ) : Prop :=
  ∃ res, tryBuckets H A task num = .ok (some res)

/-- Every try with buckets returns. -/
theorem tryBuckets_returns (hA : A.Succeeds) (h : Exchange H seed M₁ M₂ block) (task : DecodeTask)
    (hseed : task.seed = seed) (hblock : task.block = block) (hmempool : task.mempool = M₂)
    (hadded : task.added.WellFormed) (hremoved : task.removed.WellFormed)
    {candidates : UnorderedSet Tx}
    (hcand : decodeCandidates H seed task.minFeePerByte task.added task.removed M₂ =
      .ok candidates) (num : ℕ) (hone : 1 ≤ num) (hmax : num ≤ maxBuckets) :
    ∃ r, tryBuckets H A task num = .ok r ∧ (∀ res, r = some res → res.ibltSlices = num) ∧
      (Separate H num seed block candidates →
        (r ≠ none ↔ Recoverable H num seed block candidates)) := by
  obtain ⟨past, junk, block', added, removed, minFeePerByte, coinbase, mempool, seed'⟩ := task
  dsimp only at hseed hblock hmempool hadded hremoved hcand
  subst hseed hblock hmempool
  obtain ⟨iblt, hiblt, -⟩ := ofSet_txEntries (H := H) hone h.seed_ne h.hashed₁ h.sliceable₁ h.sub
  have hsendable : WireMessage.Sendable
      ⟨coinbase, minFeePerByte, seed', added, removed, num, iblt⟩ := ⟨hadded, hremoved, hone, hmax⟩
  obtain ⟨ea, er, henc⟩ := WireMessage.wireEncode_eq _ hsendable
  obtain ⟨m', hdec, hsame⟩ := WireMessage.decode_whole hA (past num) TxbitsSet.empty
    TxbitsSet.empty hsendable ea er
  obtain ⟨b, counts, hmsg, hexact⟩ := h.decodeMessage_exact (junk num) hcand hone hiblt hsame
  have hdecode := congrArg (fun r => r >>= decodeMessage H (junk num) mempool) hdec
  rw [ok_bind, hmsg] at hdecode
  unfold tryBuckets
  dsimp only
  rw [hiblt, ok_bind, henc, ok_bind, decodeBlock, hdecode, ok_bind]
  cases b with
  | true =>
    refine ⟨_, rfl, fun res hres => ?_, fun hsep => ?_⟩
    · cases hres
      rfl
    · exact iff_of_true (Option.some_ne_none _)
        ((hexact hsep).1.mp rfl)
  | false =>
    refine ⟨none, rfl, fun res hres => absurd hres.symm (Option.some_ne_none res), fun hsep => ?_⟩
    exact iff_of_false (fun h => h rfl) fun hrec =>
      Bool.false_ne_true ((hexact hsep).1.mpr hrec)

/-- The task for a peer, when a block has been generated. -/
def DecodeTask.ofBlock (past : ℕ → U8) (junk : ℕ → BucketType → Bool) (block : UnorderedSet Tx)
    (minFeePerByte : U64) (coinbase : BitcoinTx) (mempool : Txmap) (seed : U64)
    (r : GeneratedBlock) : DecodeTask :=
  ⟨past, junk, block, r.added, r.removed, minFeePerByte, coinbase, mempool, seed⟩

/-! ## The search -/

theorem maxPossible_eq : maxPossible = 2 ^ 18 := by decide

theorem maxPossible_le : maxPossible ≤ maxBuckets := by decide

/-- What the search ends at. No success is reported exactly if seventeen sizes fail, each halving
the distance to `2 ^ 18`. What is reported otherwise came out of a try that accepted, and one
bucket less was not accepted. -/
structure Border (H : Hashes) (A : Allocator) (task : DecodeTask) (res : MinDecoded) : Prop where
  zero_iff : res.ibltSlices = 0 ↔
    ∀ k, 1 ≤ k → k ≤ 17 → tryBuckets H A task (2 ^ 18 - 2 ^ k) = .ok none
  failure : res.ibltSlices = 0 → res = MinDecoded.failure
  accepted : res.ibltSlices ≠ 0 → res.ibltSlices < 2 ^ 18 ∧
    tryBuckets H A task res.ibltSlices = .ok (some res) ∧
    (res.ibltSlices = 1 ∨ tryBuckets H A task (res.ibltSlices - 1) = .ok none)

/-- The search over tries that return. -/
theorem minDecode_spec {task : DecodeTask}
    (htry : ∀ num, 1 ≤ num → num < maxPossible → ∃ r, tryBuckets H A task num = .ok r ∧
      ∀ res, r = some res → res.ibltSlices = num) :
    ∃ res, minDecode H A task = .ok res ∧ Border H A task res := by
  let w₀ : Window MinDecoded := ⟨1, maxPossible, by decide, none⟩
  obtain ⟨w, hw⟩ := search_returns (fun lo => decide (lo = maxPossible - 1)) (w := w₀)
    fun num h₁ h₂ => (htry num h₁ h₂).imp fun r h => h.1
  obtain ⟨hbracket, hend⟩ := search_bracket (Bracket.start w₀) hw
  have hpath : w.found = none ↔
      ∀ k, 1 ≤ k → k ≤ 17 → tryBuckets H A task (2 ^ 18 - 2 ^ k) = .ok none :=
    search_none_iff (n := 18) (k := 17) (by decide) (by decide) (w := w₀) (by decide) maxPossible_eq
      rfl hw
  have hrun : minDecode H A task = .ok (w.found.getD MinDecoded.failure) := by
    unfold minDecode
    rw [hw]
    rfl
  refine ⟨_, hrun, ?_⟩
  rcases hbracket.above with ⟨-, hnone⟩ | ⟨hlt, res, hp, hfound⟩
  · have hnone : w.found = none := hnone
    rw [hnone]
    exact ⟨iff_of_true rfl (hpath.mp hnone), fun _ => rfl, fun h => absurd rfl h⟩
  · have hlo : 1 ≤ w.lo := hbracket.lo_le
    have hlt : w.hi < maxPossible := hlt
    obtain ⟨r, hr, hslices⟩ := htry w.hi (le_trans hlo w.le) hlt
    have hres : res.ibltSlices = w.hi :=
      hslices res (Except.ok.inj (hr.symm.trans hp))
    -- giving up, the window has one number left
    have hmeet : w.lo = w.hi := by
      rcases hend with hmeet | hstop
      · exact hmeet
      · have hle := w.le
        have hstop := of_decide_eq_true hstop
        omega
    have hpos : res.ibltSlices ≠ 0 := by omega
    have hpath := hpath.not.mp (by rw [hfound]; exact Option.some_ne_none res)
    rw [hfound, Option.getD_some]
    refine ⟨iff_of_false hpos hpath, fun h => absurd h hpos, fun _ => ?_⟩
    rw [hres, ← maxPossible_eq]
    refine ⟨hlt, hp, ?_⟩
    rw [← hmeet]
    exact hbracket.below.imp (fun h => h) fun h => h.2

/-- The search for a peer, with the lists of a block that was generated. -/
theorem Exchange.search (h : Exchange H seed M₁ M₂ block) (hA : A.Succeeds) (past : ℕ → U8)
    (junk : ℕ → BucketType → Bool) {minFeePerByte : U64} (coinbase : BitcoinTx)
    {r : GeneratedBlock} (hgen : generateBlock H seed minFeePerByte M₁ block = .ok r) :
    ∃ candidates res,
      decodeCandidates H seed minFeePerByte r.added r.removed M₂ = .ok candidates ∧
      minDecode H A (DecodeTask.ofBlock past junk block minFeePerByte coinbase M₂ seed r) =
        .ok res ∧
      Border H A (DecodeTask.ofBlock past junk block minFeePerByte coinbase M₂ seed r) res ∧
      ∀ num, 1 ≤ num → num ≤ maxBuckets → Separate H num seed block candidates →
        (Accepts H A (DecodeTask.ofBlock past junk block minFeePerByte coinbase M₂ seed r) num ↔
          Recoverable H num seed block candidates) := by
  obtain ⟨pool, r', hpool, hgen', ha, hr⟩ :=
    generateBlock_ok h.seed_ne minFeePerByte block h.ids₁ h.keyed₁ h.sub
  obtain rfl : r' = r := Except.ok.inj (hgen'.symm.trans hgen)
  obtain ⟨candidates, hcand, -⟩ :=
    decodeCandidates_ok h.seed_ne minFeePerByte h.ids₂ h.keyed₂ r'.added r'.removed
  have htry := fun num => tryBuckets_returns hA h
    (DecodeTask.ofBlock past junk block minFeePerByte coinbase M₂ seed r') rfl rfl rfl
    (ha.wellFormed hpool fun e he => he) (hr.wellFormed hpool fun e he => he) hcand num
  obtain ⟨res, hrun, hborder⟩ := minDecode_spec fun num hone hmax =>
    (htry num hone (le_trans hmax.le maxPossible_le)).imp fun r h => ⟨h.1, h.2.1⟩
  refine ⟨candidates, res, hcand, hrun, hborder, fun num hone hmax hsep => ?_⟩
  obtain ⟨result, hresult, -, hexact⟩ := htry num hone hmax
  rw [← hexact hsep, Accepts, hresult]
  cases result with
  | none => exact iff_of_false (fun h => nomatch h.choose_spec) fun h => h rfl
  | some res => exact iff_of_true ⟨res, rfl⟩ (Option.some_ne_none res)

/-- **What `min_decode` returns.** For a block that was generated and any other peer, it returns,
and what it returns is at a border. A try accepts exactly if what there is to be recovered can be,
as long as no bucket mixes the two sides. -/
theorem minDecode_border (H : Hashes) {A : Allocator} (hA : A.Succeeds) (past : ℕ → U8)
    (junk : ℕ → BucketType → Bool) {seed : U64} (minFeePerByte : U64) (coinbase : BitcoinTx)
    {M₁ M₂ : Txmap} {block : UnorderedSet Tx} (h : Exchange H seed M₁ M₂ block) :
    ∃ r task candidates res, generateBlock H seed minFeePerByte M₁ block = .ok r ∧
      task = DecodeTask.ofBlock past junk block minFeePerByte coinbase M₂ seed r ∧
      decodeCandidates H seed minFeePerByte r.added r.removed M₂ = .ok candidates ∧
      minDecode H A task = .ok res ∧ Border H A task res ∧
      ∀ num, 1 ≤ num → num ≤ maxBuckets → Separate H num seed block candidates →
        (Accepts H A task num ↔ Recoverable H num seed block candidates) := by
  obtain ⟨-, r, -, hgen, -, -⟩ :=
    generateBlock_ok h.seed_ne minFeePerByte block h.ids₁ h.keyed₁ h.sub
  obtain ⟨candidates, res, hcand, hrun, hborder, hexact⟩ := h.search hA past junk coinbase hgen
  exact ⟨r, _, candidates, res, hgen, rfl, hcand, hrun, hborder, hexact⟩

/-- One transaction lacking and one too many: six buckets are accepted. -/
theorem minDecode_border_leftTxs : ∃ task res,
    minDecode headHashes (fun _ _ => true) task = .ok res ∧
      Border headHashes (fun _ _ => true) task res ∧
      Accepts headHashes (fun _ _ => true) task 6 ∧ task.mempool = rightTxs ∧
      task.block = leftBlock := by
  obtain ⟨r, task, candidates, res, hgen, htask, hcand, hrun, hborder, hexact⟩ :=
    minDecode_border headHashes (A := fun _ _ => true) (fun _ _ => rfl) (fun _ => 0xFF)
      (fun _ _ => true) 0 BitcoinTx.blank exchange_leftTxs
  have hmem := mem_candidates_leftTxs hgen hcand
  refine ⟨task, res, hrun, hborder, ?_, by rw [htask]; rfl, by rw [htask]; rfl⟩
  exact (hexact 6 (by decide) (by decide) (separate_leftBlock hmem)).mpr
    (recoverable_leftBlock hmem)

end BitcoinIblt
