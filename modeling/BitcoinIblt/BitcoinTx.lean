import BitcoinIblt.Varint

/-!
# Transactions and their wire form

`bitcoin_tx` with its arrays, the generic accumulation `add_tx`, its uses `linearize`, `length` and
`txid`, and the parser `pull_bitcoin_tx`. A transaction carries the counts and script lengths of the
source together with the fact that they are the sizes of the arrays next to them.

`addTx_eq`: an accumulator that does not see how its input is cut gets the bytes of `txBytes`.
`reads_txBytes`: when allocation succeeds, the parser undoes `linearize` and runs short on every
proper prefix of it.
-/

namespace BitcoinIblt

open LittleEndian StickyParser

abbrev BitcoinTxid := Bytes 32

@[ext] structure BitcoinTxOutput where
  amount : U64
  scriptLength : U64
  script : List U8
  length_script : script.length = scriptLength.toNat
  deriving DecidableEq, Repr

@[ext] structure BitcoinTxInput where
  txid : BitcoinTxid
  index : U32
  scriptLength : U64
  script : List U8
  sequenceNumber : U32
  length_script : script.length = scriptLength.toNat
  deriving DecidableEq, Repr

@[ext] structure BitcoinTx where
  version : U32
  inputCount : U64
  input : List BitcoinTxInput
  outputCount : U64
  output : List BitcoinTxOutput
  lockTime : U32
  length_input : input.length = inputCount.toNat
  length_output : output.length = outputCount.toNat
  deriving DecidableEq, Repr

/-! ## Accumulation -/

section Add

variable {m : Type → Type} [Monad m] {σ : Type}

def addTxInput (input : BitcoinTxInput) (add : List U8 → σ → m σ) (addp : σ) : m σ := do
  let addp ← add input.txid.1 addp
  let addp ← addLe32 input.index add addp
  let addp ← addVarint input.scriptLength add addp
  let addp ← add input.script addp
  addLe32 input.sequenceNumber add addp

def addTxOutput (output : BitcoinTxOutput) (add : List U8 → σ → m σ) (addp : σ) : m σ := do
  let addp ← addLe64 output.amount add addp
  let addp ← addVarint output.scriptLength add addp
  add output.script addp

def BitcoinTx.addTx (tx : BitcoinTx) (add : List U8 → σ → m σ) (addp : σ) : m σ := do
  let addp ← addLe32 tx.version add addp
  let addp ← addVarint tx.inputCount add addp
  let addp ← tx.input.foldlM (fun addp input => addTxInput input add addp) addp
  let addp ← addVarint tx.outputCount add addp
  let addp ← tx.output.foldlM (fun addp output => addTxOutput output add addp) addp
  addLe32 tx.lockTime add addp

end Add

def addLinearize (data vec : List U8) : Id (List U8) := pure (vec ++ data)

def BitcoinTx.linearize (tx : BitcoinTx) : List U8 := Id.run (tx.addTx addLinearize [])

def addLength (data : List U8) (len : ℕ) : Id ℕ := pure (len + data.length)

def BitcoinTx.length (tx : BitcoinTx) : ℕ := Id.run (tx.addTx addLength 0)

/-- `sha256_update`: the context is the bytes hashed so far. -/
def addSha (data ctx : List U8) : Id (List U8) := pure (ctx ++ data)

/-- `SHA256(SHA256(tx))` -/
def BitcoinTx.txid (H : Hashes) (tx : BitcoinTx) : BitcoinTxid :=
  H.sha256 (H.sha256 (Id.run (tx.addTx addSha []))).1

/-! ## Parsing -/

/-- `new T[count]` for a `T` of `size` bytes. -/
def newArray (A : Allocator) (count size : ℕ) : Pull Unit := fun c =>
  if A count size then .ok ((), c) else .error .badArrayNewLength

/-- The three lines that read a script: its length, `new u8[script_length]` and the bytes. -/
def pullScript (A : Allocator) : Pull ((n : U64) × Bytes n.toNat) := do
  let scriptLength ← pullVarint
  newArray A scriptLength.toNat 1
  let script ← pullCopy scriptLength.toNat
  return ⟨scriptLength, script⟩

def pullInput (A : Allocator) : Pull BitcoinTxInput := do
  let txid ← pullCopy 32
  let index ← pullLe32
  let ⟨scriptLength, script⟩ ← pullScript A
  let sequenceNumber ← pullLe32
  return ⟨txid, index, scriptLength, script.1, sequenceNumber, script.2⟩

def pullOutput (A : Allocator) : Pull BitcoinTxOutput := do
  let amount ← pullLe64
  let ⟨scriptLength, script⟩ ← pullScript A
  return ⟨amount, scriptLength, script.1, script.2⟩

/-- `sizeof(bitcoin_tx_input)` and `sizeof(bitcoin_tx_output)`. -/
def sizeofInput : ℕ := 64
def sizeofOutput : ℕ := 24

/-- The lines that read an array: its count, `new T[count]` and the loop of `p`. -/
def pullArray {α : Type} (A : Allocator) (size : ℕ) (p : Pull α) :
    Pull ((n : U64) × { l : List α // l.length = n.toNat }) := do
  let count ← pullVarint
  newArray A count.toNat size
  let l ← many p count.toNat
  return ⟨count, l⟩

/-- `pull_bitcoin_tx`; its result is whether the cursor it leaves is non-NULL. -/
def pullBitcoinTx (A : Allocator) : Pull BitcoinTx := do
  let version ← pullLe32
  let ⟨inputCount, input⟩ ← pullArray A sizeofInput (pullInput A)
  let ⟨outputCount, output⟩ ← pullArray A sizeofOutput (pullOutput A)
  let lockTime ← pullLe32
  return ⟨version, inputCount, input.1, outputCount, output.1, lockTime, input.2, output.2⟩

/-- The constructor `bitcoin_tx(const u8 **p, size_t *len)`. -/
def BitcoinTx.parse (A : Allocator) : Pull BitcoinTx := do
  let tx ← pullBitcoinTx A
  match ← get with
  | none => throw (.runtimeError "bad tx")
  | some _ => return tx

/-- The constructor `bitcoin_tx((varint_t)0, (varint_t)0)`. -/
def BitcoinTx.blank : BitcoinTx := ⟨1, 0, [], 0, [], 0xFFFFFFFF, rfl, rfl⟩

/-- An output whose script is `n` zeros. -/
def zerosOutput (n : U16) : BitcoinTxOutput :=
  ⟨5000, n.setWidth 64, List.replicate n.toNat 0, by
    rw [List.length_replicate, BitVec.toNat_setWidth_of_le (by decide)]⟩

/-- A transaction of version `v` with an input and such an output, to run the model with. -/
def headBtx (v : U8) (n : U16) : BitcoinTx where
  version := v.setWidth 32
  inputCount := 1
  input := [⟨zeroBytes 32, 0, 3, [1, 2, 3], 0xFFFFFFFF, rfl⟩]
  outputCount := 1
  output := [zerosOutput n]
  lockTime := 0
  length_input := rfl
  length_output := rfl

/-- Its txid under `headHashes`. -/
def headTxid (v : U8) : BitcoinTxid := ⟨List.replicate 32 v, List.length_replicate⟩

/-! ## The bytes of a transaction -/

def inputBytes (input : BitcoinTxInput) : List U8 :=
  input.txid.1 ++ (le32Bytes input.index ++ (varintBytes input.scriptLength ++
    (input.script ++ le32Bytes input.sequenceNumber)))

def outputBytes (output : BitcoinTxOutput) : List U8 :=
  le64Bytes output.amount ++ (varintBytes output.scriptLength ++ output.script)

def txBytes (tx : BitcoinTx) : List U8 :=
  le32Bytes tx.version ++ (varintBytes tx.inputCount ++ (tx.input.flatMap inputBytes ++
    (varintBytes tx.outputCount ++ (tx.output.flatMap outputBytes ++ le32Bytes tx.lockTime))))

section Add

variable {m : Type → Type} [Monad m] {σ : Type} {add : List U8 → σ → m σ}

/-- Adding two pieces is adding their concatenation. -/
def Chunked (add : List U8 → σ → m σ) : Prop :=
  ∀ a b s, (add a s >>= fun s => add b s) = add (a ++ b) s

theorem addTxInput_eq (h : Chunked add) (input : BitcoinTxInput) (s : σ) :
    addTxInput input add s = add (inputBytes input) s := by
  simp only [addTxInput, addLe32, addVarint, h _ _ _, inputBytes]

theorem addTxOutput_eq (h : Chunked add) (output : BitcoinTxOutput) (s : σ) :
    addTxOutput output add s = add (outputBytes output) s := by
  simp only [addTxOutput, addLe64, addVarint, h _ _ _, outputBytes]

variable [LawfulMonad m]

/-- A loop of additions after a first one is one addition. -/
theorem add_foldlM {α : Type} (h : Chunked add) {step : α → σ → m σ} {bytes : α → List U8}
    (hstep : ∀ a s, step a s = add (bytes a) s) (pre : List U8) (l : List α) (s : σ) :
    (add pre s >>= fun s => l.foldlM (fun s a => step a s) s) = add (pre ++ l.flatMap bytes) s := by
  induction l generalizing pre with
  | nil => simp
  | cons a l ih =>
    simp only [List.foldlM_cons, List.flatMap_cons, ← List.append_assoc]
    rw [← ih, ← h pre (bytes a) s, bind_assoc]
    simp only [hstep]

/-- An accumulator that does not see how its input is cut gets the bytes of the transaction. -/
theorem addTx_eq (h : Chunked add) (tx : BitcoinTx) (s : σ) :
    tx.addTx add s = add (txBytes tx) s := by
  have hin := add_foldlM h fun input => addTxInput_eq h input
  have hout := add_foldlM h fun output => addTxOutput_eq h output
  simp only [BitcoinTx.addTx, addLe32, addVarint]
  rw [← bind_assoc, h, ← bind_assoc, hin, ← bind_assoc, h, ← bind_assoc, hout, h]
  simp only [txBytes, List.append_assoc]

end Add

theorem linearize_eq (tx : BitcoinTx) : tx.linearize = txBytes tx := by
  rw [BitcoinTx.linearize, addTx_eq (fun a b s => by simp [addLinearize])]
  simp [addLinearize]

theorem length_eq (tx : BitcoinTx) : tx.length = (txBytes tx).length := by
  rw [BitcoinTx.length, addTx_eq (fun a b s => by simp [addLength, Nat.add_assoc])]
  simp [addLength]

theorem txid_eq (H : Hashes) (tx : BitcoinTx) :
    tx.txid H = H.sha256 (H.sha256 (txBytes tx)).1 := by
  rw [BitcoinTx.txid, addTx_eq (fun a b s => by simp [addSha])]
  simp [addSha]

/-- Version, two counts and the lock time: no transaction is shorter than ten bytes. -/
theorem ten_le_length (tx : BitcoinTx) : 10 ≤ tx.length := by
  have h₁ := varintLen_pos tx.inputCount.toNat
  have h₂ := varintLen_pos tx.outputCount.toNat
  simp only [length_eq, txBytes, List.length_append, le32Bytes, toLE_length, varintBytes_length]
  omega

theorem length_headBtx (v : U8) (n : U16) :
    (headBtx v n).length = 62 + varintLen n.toNat + n.toNat := by
  have hone : (varintBytes 1).length = 1 := rfl
  have hthree : (varintBytes 3).length = 1 := rfl
  simp only [length_eq, txBytes, headBtx, inputBytes, outputBytes, zerosOutput, zeroBytes,
    le32Bytes, le64Bytes, List.flatMap_cons, List.flatMap_nil, List.append_nil, List.length_append,
    List.length_replicate, List.length_cons, List.length_nil, toLE_length, hone, hthree,
    varintBytes_length, BitVec.toNat_setWidth_of_le (show 16 ≤ 64 by decide)]
  omega

theorem txid_headBtx (v : U8) (n : U16) : (headBtx v n).txid headHashes = headTxid v := by
  have hhead : (txBytes (headBtx v n)).headD 0 = BitVec.ofNat 8 (v.setWidth 32).toNat := rfl
  have hbyte : BitVec.ofNat 8 (v.setWidth 32).toNat = v := by
    rw [BitVec.toNat_setWidth_of_le (by decide), BitVec.ofNat_toNat, BitVec.setWidth_eq]
  rw [txid_eq]
  refine Subtype.ext ?_
  show List.replicate 32 ((txBytes (headBtx v n)).headD 0) = List.replicate 32 v
  rw [hhead, hbyte]

theorem headTxid_injective : Function.Injective headTxid := by
  intro v w h
  have h₀ : (List.replicate 32 v).head? = (List.replicate 32 w).head? :=
    congrArg (fun x : BitcoinTxid => x.1.head?) h
  exact Option.some.inj h₀

/-! ## Round trip -/

/-- Every allocation succeeds. -/
def Allocator.Succeeds (A : Allocator) : Prop := ∀ count size, A count size = true

section RoundTrip

variable {A : Allocator} (hA : A.Succeeds)

include hA

theorem reads_newArray (count size : ℕ) : Reads (newArray A count size) () [] where
  full rest := by simp [newArray, hA count size]
  short _ hpre hne := absurd (List.prefix_nil.mp hpre) hne

theorem sticky_newArray (count size : ℕ) : Sticky (newArray A count size) :=
  ⟨(), by simp [newArray, hA count size]⟩

theorem sticky_pullScript : Sticky (pullScript A) :=
  sticky_pullVarint.bind fun n => (sticky_newArray hA n.toNat 1).bind fun _ =>
    (sticky_pullCopy n.toNat).bind fun _ => Sticky.pure _

theorem reads_pullScript {n : U64} {enc : List U8} (hn : Reads pullVarint n enc)
    (script : Bytes n.toNat) : Reads (pullScript A) ⟨n, script⟩ (enc ++ script.1) := by
  refine hn.bind ((reads_newArray hA _ 1).bind_nil ?_ fun _ => ?_) fun n' => ?_
  · exact (reads_pullCopy script).bind_pure
  · exact (sticky_pullCopy _).bind fun _ => Sticky.pure _
  · exact (sticky_newArray hA _ 1).bind fun _ => (sticky_pullCopy _).bind fun _ => Sticky.pure _

theorem sticky_pullInput : Sticky (pullInput A) :=
  (sticky_pullCopy 32).bind fun _ => sticky_pullLe32.bind fun _ =>
    (sticky_pullScript hA).bind fun _ => sticky_pullLe32.bind fun _ => Sticky.pure _

/-- An input is read whatever form its script length is written in. -/
theorem reads_pullInput (input : BitcoinTxInput) {enc : List U8}
    (hn : Reads pullVarint input.scriptLength enc) :
    Reads (pullInput A) input (input.txid.1 ++ (le32Bytes input.index ++ (enc ++
      (input.script ++ le32Bytes input.sequenceNumber)))) := by
  obtain ⟨txid, index, scriptLength, script, sequenceNumber, hs⟩ := input
  have hscript := reads_pullScript hA hn ⟨script, hs⟩
  have hrest := hscript.bind (f := fun r => do
      let sequenceNumber ← pullLe32
      return (⟨txid, index, r.1, r.2.1, sequenceNumber, r.2.2⟩ : BitcoinTxInput))
    (reads_le32 sequenceNumber).bind_pure fun _ => sticky_pullLe32.bind fun _ => Sticky.pure _
  rw [List.append_assoc] at hrest
  refine (reads_pullCopy txid).bind ((reads_le32 index).bind hrest fun _ => ?_) fun _ => ?_
  · exact (sticky_pullScript hA).bind fun _ => sticky_pullLe32.bind fun _ => Sticky.pure _
  · exact sticky_pullLe32.bind fun _ => (sticky_pullScript hA).bind fun _ =>
      sticky_pullLe32.bind fun _ => Sticky.pure _

theorem sticky_pullOutput : Sticky (pullOutput A) :=
  sticky_pullLe64.bind fun _ => (sticky_pullScript hA).bind fun _ => Sticky.pure _

theorem reads_pullOutput (output : BitcoinTxOutput) {enc : List U8}
    (hn : Reads pullVarint output.scriptLength enc) :
    Reads (pullOutput A) output (le64Bytes output.amount ++ (enc ++ output.script)) := by
  obtain ⟨amount, scriptLength, script, hs⟩ := output
  have hscript := reads_pullScript hA hn ⟨script, hs⟩
  refine (reads_le64 amount).bind (hscript.bind_pure (f := fun r =>
    (⟨amount, r.1, r.2.1, r.2.2⟩ : BitcoinTxOutput))) fun _ => ?_
  exact (sticky_pullScript hA).bind fun _ => Sticky.pure _

theorem sticky_pullArray {α : Type} {p : Pull α} (hp : Sticky p) (size : ℕ) :
    Sticky (pullArray A size p) :=
  sticky_pullVarint.bind fun n => (sticky_newArray hA n.toNat size).bind fun _ =>
    (hp.many n.toNat).bind fun _ => Sticky.pure _

/-- An array is read when its elements are, whatever form its count is written in. -/
theorem reads_pullArray {α τ : Type} {p : Pull α} {val : τ → α} {enc : τ → List U8}
    (hp : Sticky p) (hr : ∀ t, Reads p (val t) (enc t)) (size : ℕ) {n : U64} {encn : List U8}
    (hn : Reads pullVarint n encn) (ts : List τ) (l : { l : List α // l.length = n.toNat })
    (hl : ts.map val = l.1) :
    Reads (pullArray A size p) ⟨n, l⟩ (encn ++ ts.flatMap enc) := by
  refine hn.bind ((reads_newArray hA _ _).bind_nil ?_ fun _ => ?_) fun n' => ?_
  · exact (Reads.many_map hp hr ts l hl).bind_pure
  · exact (hp.many _).bind fun _ => Sticky.pure _
  · exact (sticky_newArray hA _ _).bind fun _ => (hp.many _).bind fun _ => Sticky.pure _

theorem sticky_pullBitcoinTx : Sticky (pullBitcoinTx A) :=
  sticky_pullLe32.bind fun _ => (sticky_pullArray hA (sticky_pullInput hA) _).bind fun _ =>
    (sticky_pullArray hA (sticky_pullOutput hA) _).bind fun _ => sticky_pullLe32.bind fun _ =>
      Sticky.pure _

/-- A transaction is read when its two arrays are. -/
theorem reads_pullBitcoinTx (tx : BitcoinTx) {encIn encOut : List U8}
    (hin : Reads (pullArray A sizeofInput (pullInput A))
      ⟨tx.inputCount, ⟨tx.input, tx.length_input⟩⟩ encIn)
    (hout : Reads (pullArray A sizeofOutput (pullOutput A))
      ⟨tx.outputCount, ⟨tx.output, tx.length_output⟩⟩ encOut) :
    Reads (pullBitcoinTx A) tx
      (le32Bytes tx.version ++ (encIn ++ (encOut ++ le32Bytes tx.lockTime))) := by
  obtain ⟨version, inputCount, input, outputCount, output, lockTime, hlin, hlout⟩ := tx
  have sIn := sticky_pullArray hA (sticky_pullInput hA) sizeofInput
  have sOut := sticky_pullArray hA (sticky_pullOutput hA) sizeofOutput
  have hOutput := hout.bind (f := fun o => do
      let lockTime ← pullLe32
      return (⟨version, inputCount, input, o.1, o.2.1, lockTime, hlin, o.2.2⟩ : BitcoinTx))
    (reads_le32 lockTime).bind_pure fun _ => sticky_pullLe32.bind fun _ => Sticky.pure _
  have hInput := hin.bind (f := fun i => do
      let o ← pullArray A sizeofOutput (pullOutput A)
      let lockTime ← pullLe32
      return (⟨version, i.1, i.2.1, o.1, o.2.1, lockTime, i.2.2, o.2.2⟩ : BitcoinTx))
    hOutput fun _ => sOut.bind fun _ => sticky_pullLe32.bind fun _ => Sticky.pure _
  refine (reads_le32 version).bind hInput fun _ => ?_
  exact sIn.bind fun _ => sOut.bind fun _ => sticky_pullLe32.bind fun _ => Sticky.pure _

theorem reads_txBytes (tx : BitcoinTx) : Reads (pullBitcoinTx A) tx (txBytes tx) := by
  have hin := reads_pullArray hA (sticky_pullInput hA)
    (fun i => reads_pullInput hA i (reads_varint _)) sizeofInput (reads_varint tx.inputCount)
    tx.input ⟨tx.input, tx.length_input⟩ (List.map_id' _)
  have hout := reads_pullArray hA (sticky_pullOutput hA)
    (fun o => reads_pullOutput hA o (reads_varint _)) sizeofOutput (reads_varint tx.outputCount)
    tx.output ⟨tx.output, tx.length_output⟩ (List.map_id' _)
  have h := reads_pullBitcoinTx hA tx hin hout
  simp only [List.append_assoc] at h
  exact h

/-- The parsing constructor reads back a transaction from its bytes, whatever follows them. -/
theorem parse_append (tx : BitcoinTx) (rest : List U8) :
    BitcoinTx.parse A (some (txBytes tx ++ rest)) = .ok (tx, some rest) := by
  rw [BitcoinTx.parse, bind_apply, (reads_txBytes hA tx).full]
  rfl

/-- The parsing constructor throws on every proper prefix of the bytes of a transaction. -/
theorem parse_short (tx : BitcoinTx) {pre : List U8} (h : pre <+: txBytes tx)
    (hne : pre ≠ txBytes tx) :
    BitcoinTx.parse A (some pre) = .error (.runtimeError "bad tx") := by
  obtain ⟨tx', h'⟩ := (reads_txBytes hA tx).short pre h hne
  rw [BitcoinTx.parse, bind_apply, h']
  rfl

/-- The parsing constructor throws on a NULL cursor. -/
theorem parse_none : BitcoinTx.parse A none = .error (.runtimeError "bad tx") := by
  obtain ⟨tx', h'⟩ := sticky_pullBitcoinTx hA
  rw [BitcoinTx.parse, bind_apply, h']
  rfl

end RoundTrip

/-- **Round trip of a transaction.** The parsing constructor reads back what `linearize` writes and
leaves what follows it; on a proper prefix, wherever the cut falls, it throws. -/
theorem transaction_round_trip {A : Allocator} (hA : A.Succeeds) (tx : BitcoinTx) :
    (∀ rest, BitcoinTx.parse A (some (tx.linearize ++ rest)) = .ok (tx, some rest)) ∧
      ∀ pre, pre <+: tx.linearize → pre ≠ tx.linearize →
        BitcoinTx.parse A (some pre) = .error (.runtimeError "bad tx") := by
  rw [linearize_eq]
  exact ⟨parse_append hA tx, fun pre => parse_short hA tx⟩

/-- An input, an output with a script of 300 bytes, one byte behind it, and a cut in the script. -/
theorem transaction_round_trip_headBtx :
    BitcoinTx.parse (fun _ _ => true) (some ((headBtx 2 300).linearize ++ [0xFF])) =
        .ok (headBtx 2 300, some [0xFF]) ∧
      BitcoinTx.parse (fun _ _ => true) (some ((headBtx 2 300).linearize.take 100)) =
        .error (.runtimeError "bad tx") := by
  obtain ⟨hfull, hshort⟩ := transaction_round_trip (A := fun _ _ => true) (fun _ _ => rfl)
    (headBtx 2 300)
  refine ⟨hfull [0xFF], hshort _ (List.take_prefix _ _) fun h => ?_⟩
  have hlen := congrArg List.length h
  rw [List.length_take, linearize_eq, ← length_eq, length_headBtx] at hlen
  exact absurd hlen (by decide)

end BitcoinIblt
