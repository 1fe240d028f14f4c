import BitcoinIblt.Murmur
import BitcoinIblt.Sha256Stream

/-!
# Ids with the hash functions of the source

The model takes its hash functions as a parameter and hashes a message at once. The source hashes in
pieces: `add_tx` hands every field of a transaction to `sha256_update` as it comes, and the
constructor of `txid48` adds the txid and the seed to one context. `sourceHashes` are the source's
functions, and `txid_stream` says that the ids the source computes are those of the model with
them.
-/

namespace BitcoinIblt

open LittleEndian

/-- The hash functions of the source. `sha256` on one message never fails. -/
def sourceHashes : Hashes where
  sha256 p := (Sha256.sha256 p).toOption.getD (zeroBytes 32)
  murmurHash3 := Murmur.murmurHash3

theorem sourceHashes_sha256 (p : List U8) : sourceHashes.sha256 p = Sha2.digest p := by
  change (Sha256.sha256 p).toOption.getD (zeroBytes 32) = _
  rw [Sha256.sha256_eq]
  rfl

/-! ## The pieces of a transaction -/

def inputPieces (input : BitcoinTxInput) : List (List U8) :=
  [input.txid.1, le32Bytes input.index, varintBytes input.scriptLength, input.script,
    le32Bytes input.sequenceNumber]

def outputPieces (output : BitcoinTxOutput) : List (List U8) :=
  [le64Bytes output.amount, varintBytes output.scriptLength, output.script]

/-- What `add_tx` hands on before the lock time. -/
def txPieces (tx : BitcoinTx) : List (List U8) :=
  [le32Bytes tx.version, varintBytes tx.inputCount] ++ tx.input.flatMap inputPieces ++
    [varintBytes tx.outputCount] ++ tx.output.flatMap outputPieces

section Add

variable {m : Type → Type} [Monad m] [LawfulMonad m] {σ : Type} (add : List U8 → σ → m σ)

/-- A loop whose body adds pieces adds them all. -/
theorem foldlM_flatMap {α : Type} {step : α → σ → m σ} {pieces : α → List (List U8)}
    (hstep : ∀ a s, step a s = (pieces a).foldlM (fun s p => add p s) s) (l : List α) (s : σ) :
    l.foldlM (fun s a => step a s) s = (l.flatMap pieces).foldlM (fun s p => add p s) s := by
  induction l generalizing s with
  | nil => rfl
  | cons a l ih =>
    rw [List.foldlM_cons, List.flatMap_cons, List.foldlM_append, hstep]
    congr 1
    funext s
    exact ih s

theorem addTxInput_pieces (input : BitcoinTxInput) (s : σ) :
    addTxInput input add s = (inputPieces input).foldlM (fun s p => add p s) s := by
  simp [addTxInput, inputPieces, addLe32, addVarint]

theorem addTxOutput_pieces (output : BitcoinTxOutput) (s : σ) :
    addTxOutput output add s = (outputPieces output).foldlM (fun s p => add p s) s := by
  simp [addTxOutput, outputPieces, addLe64, addVarint]

theorem addTx_pieces (tx : BitcoinTx) (s : σ) :
    tx.addTx add s = (txPieces tx ++ [le32Bytes tx.lockTime]).foldlM (fun s p => add p s) s := by
  simp only [BitcoinTx.addTx, txPieces, List.foldlM_append,
    ← foldlM_flatMap add (addTxInput_pieces add), ← foldlM_flatMap add (addTxOutput_pieces add)]
  simp [addLe32, addVarint]

end Add

theorem flatten_inputPieces (input : BitcoinTxInput) :
    (inputPieces input).flatten = inputBytes input := by
  simp [inputPieces, inputBytes]

theorem flatten_outputPieces (output : BitcoinTxOutput) :
    (outputPieces output).flatten = outputBytes output := by
  simp [outputPieces, outputBytes]

/-- A concatenation of concatenations. -/
theorem flatten_flatMap {α : Type} {pieces : α → List (List U8)} {bytes : α → List U8}
    (h : ∀ a, (pieces a).flatten = bytes a) (l : List α) :
    (l.flatMap pieces).flatten = l.flatMap bytes := by
  induction l with
  | nil => rfl
  | cons a l ih => rw [List.flatMap_cons, List.flatten_append, ih, h, List.flatMap_cons]

theorem flatten_txPieces (tx : BitcoinTx) :
    (txPieces tx ++ [le32Bytes tx.lockTime]).flatten = txBytes tx := by
  simp [txPieces, txBytes, flatten_flatMap flatten_inputPieces,
    flatten_flatMap flatten_outputPieces]

/-! ## Ids -/

namespace Sha256

/-- `sha256_double(sha256_ctx &)` -/
def double (ctx : Ctx) : Run (Bytes 32) := do
  let (sha, _) ← done ctx
  sha256 sha.1

end Sha256

/-- `bitcoin_tx::txid()` -/
def BitcoinTx.txidStream (tx : BitcoinTx) : Run BitcoinTxid := do
  let ctx ← tx.addTx (fun data ctx => Sha256.update ctx data) Sha256.init
  Sha256.double ctx

/-- The constructor `txid48(u64 seed, const bitcoin_txid &txid)` -/
def Txid48.newStream (seed : U64) (txid : BitcoinTxid) : Run Txid48 := do
  if seed = 0 then
    throw .assertion
  let ctx ← Sha256.update Sha256.init txid.1
  let ctx ← Sha256.update ctx (le64Bytes seed)
  let (h, _) ← Sha256.done ctx
  return BitVec.ofNat 48 (ofLE (h.1.take 6))

theorem Sha256.double_eq {ctx : Sha256.Ctx} {m : List U8} (h : Sha256.Represents ctx m) :
    Sha256.double ctx = .ok (Sha2.digest (Sha2.digest m).1) := by
  obtain ⟨ctx', hdone, -⟩ := h.done
  rw [Sha256.double, hdone]
  exact Sha256.sha256_eq _

theorem txidStream_eq (tx : BitcoinTx) (h : tx.length < 2 ^ 64) :
    tx.txidStream = .ok (Sha2.digest (Sha2.digest tx.linearize).1) := by
  have hlock : le32Bytes tx.lockTime ≠ [] := by
    intro hnil
    have hlen := congrArg List.length hnil
    rw [le32Bytes, toLE_length] at hlen
    cases hlen
  rw [length_eq, ← flatten_txPieces] at h
  have hmark := Sha256.not_marked_of_lt (txPieces tx) (n := 0) (by rwa [Nat.zero_add]) hlock
  obtain ⟨ctx, hrun, hrep⟩ := Sha256.represents_init.pieces hmark
  rw [List.nil_append, flatten_txPieces, ← linearize_eq] at hrep
  rw [BitcoinTx.txidStream, addTx_pieces, hrun]
  exact Sha256.double_eq hrep

theorem newStream_eq (seed : U64) (txid : BitcoinTxid) :
    Txid48.newStream seed txid = Txid48.new sourceHashes seed txid := by
  by_cases hseed : seed = 0
  · rw [Txid48.newStream, Txid48.new, if_pos hseed, if_pos hseed]
    rfl
  · obtain ⟨ctx₁, h₁, hrep₁⟩ := Sha256.represents_init.update (by decide) txid.1
    obtain ⟨ctx₂, h₂, hrep₂⟩ := hrep₁.update (by rw [List.nil_append, txid.2]; decide)
      (le64Bytes seed)
    rw [List.nil_append] at hrep₂
    obtain ⟨ctx₃, h₃, -⟩ := hrep₂.done
    rw [Txid48.newStream, if_neg hseed, Txid48.new, if_neg hseed, txid48, sourceHashes_sha256,
      h₁]
    change (Sha256.update ctx₁ (le64Bytes seed) >>= fun ctx => Sha256.done ctx >>= fun x =>
      pure (BitVec.ofNat 48 (ofLE (x.1.1.take 6)))) = _
    rw [h₂, ok_bind, h₃]
    rfl

/-- The ids of the source: what `txid()` hashes field by field is the double hash of the
transaction's bytes, and the ids that the model computes with `sourceHashes` are these. -/
theorem txid_stream (tx : BitcoinTx) (seed : U64) (h : tx.length < 2 ^ 64) :
    tx.txidStream = .ok (tx.txid sourceHashes) ∧
      (tx.txid sourceHashes).1 = (Sha2.digest (Sha2.digest tx.linearize).1).1 ∧
      (tx.txidStream >>= Txid48.newStream seed) =
        Txid48.new sourceHashes seed (tx.txid sourceHashes) := by
  have htxid : tx.txid sourceHashes = Sha2.digest (Sha2.digest tx.linearize).1 := by
    rw [txid_eq, sourceHashes_sha256, sourceHashes_sha256, linearize_eq]
  have hstream := txidStream_eq tx h
  rw [← htxid] at hstream
  refine ⟨hstream, by rw [htxid], ?_⟩
  rw [hstream, ok_bind, newStream_eq]

theorem txid_stream_headBtx :
    (headBtx 2 300).txidStream = .ok ((headBtx 2 300).txid sourceHashes) ∧
      ((headBtx 2 300).txid sourceHashes).1 =
        (Sha2.digest (Sha2.digest (headBtx 2 300).linearize).1).1 ∧
      ((headBtx 2 300).txidStream >>= Txid48.newStream 7) =
        Txid48.new sourceHashes 7 ((headBtx 2 300).txid sourceHashes) :=
  txid_stream (headBtx 2 300) 7 (by rw [length_headBtx]; decide)

end BitcoinIblt
