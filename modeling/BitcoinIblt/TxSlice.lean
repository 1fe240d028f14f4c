import BitcoinIblt.BitcoinTx
import BitcoinIblt.Lib.Containers
import BitcoinIblt.Lib.Overwrite

/-!
# Short ids and slices

`txid48`, the 48-bit id of a transaction under a seed, and `txslice`, the unit the tables are made
of: 48 bits of id, a 16-bit fragment id and `ibltSize` bytes of content. `sliceTx` cuts a
transaction into slices with the chunking writer `addSlice`; `rebuildTx` joins slices and parses.
-/

namespace BitcoinIblt

open LittleEndian StickyParser

/-! ## Short ids -/

/-- The 48 bits a `txid48` holds. -/
abbrev Txid48 := BitVec 48

variable (H : Hashes)

/-- `SHA256(txid || seed)`, cut to 48 bits. -/
def txid48 (seed : U64) (txid : BitcoinTxid) : Txid48 :=
  BitVec.ofNat 48 (ofLE ((H.sha256 (txid.1 ++ le64Bytes seed)).1.take 6))

/-- The constructor `txid48(u64 seed, const bitcoin_txid &txid)`, with its `assert(seed)`. -/
def Txid48.new (seed : U64) (txid : BitcoinTxid) : Run Txid48 :=
  if seed = 0 then .error .assertion else .ok (txid48 H seed txid)

/-- The counter offset: the first 16 bits of the hash of the id. -/
def Txid48.fragBase (id : Txid48) : U16 :=
  let h := (H.sha256 (toLE 6 id.toNat)).1
  (h.getD 1 0).setWidth 16 <<< 8 ||| (h.getD 0 0).setWidth 16

/-! ## Slices -/

@[ext] structure TxSlice where
  txidbits : BitVec 48
  fragid : U16
  contents : Bytes ibltSize
  deriving DecidableEq, Repr

namespace TxSlice

/-- `operator <` compares the ids, then the fragment ids. -/
def lt (lhs rhs : TxSlice) : Prop :=
  if lhs.txidbits ≠ rhs.txidbits then lhs.txidbits < rhs.txidbits else lhs.fragid < rhs.fragid

instance : DecidableRel lt := fun _ _ => by unfold lt; infer_instance

/-- The bytes of the struct in memory: 6 of the id, 2 of the fragment id and the contents. -/
def asBytes (s : TxSlice) : List U8 :=
  toLE 6 s.txidbits.toNat ++ toLE 2 s.fragid.toNat ++ s.contents.1

/-- `txslice::size()` -/
def size : ℕ := 8 + ibltSize

def numSlicesFor (bytes : ℕ) : ℕ := (bytes + ibltSize - 1) / ibltSize

def getTxid48 (s : TxSlice) : Txid48 := s.txidbits

/-- All fields and all content bytes are zero. -/
def empty (s : TxSlice) : Bool :=
  decide (s.txidbits = 0) && decide (s.fragid = 0) && s.contents.1.all (· == 0)

/-- The varint at the start of the contents. -/
def slicesExpected (s : TxSlice) : Run U64 := do
  return (← pullVarint (some s.contents.1)).1

/-- The offset of the fragment id from the base of the id, modulo `2 ^ 16`. -/
def fragoff (s : TxSlice) : U16 := s.fragid - s.getTxid48.fragBase H

end TxSlice

/-! ## Cutting a transaction -/

/-- The writer's place in the vector: the next byte goes to `vec[index].contents[off]`. -/
structure SliceState where
  index : ℕ
  off : ℕ
  vec : List TxSlice
  off_lt : off < ibltSize

/-- `memcpy(contents + off, data, data.length)` -/
def copyInto (contents : Bytes ibltSize) (off : ℕ) (data : List U8)
    (h : off + data.length ≤ ibltSize) : Bytes ibltSize :=
  ⟨overwrite contents.1 off data,
    by rw [overwrite_length (by rw [contents.2]; exact h), contents.2]⟩

/-- One turn of the loop: `data` goes into `slice`, the one at `index`, and a full slice is left. -/
def SliceState.write (s : SliceState) (slice : TxSlice) (data : List U8)
    (h : s.off + data.length ≤ ibltSize) : SliceState :=
  let vec := s.vec.set s.index { slice with contents := copyInto slice.contents s.off data h }
  if hfull : s.off + data.length = ibltSize then ⟨s.index + 1, 0, vec, by decide⟩
  else ⟨s.index, s.off + data.length, vec, lt_of_le_of_ne h hfull⟩

/-- `add_slice`: while data is left, write what fits into the current slice. -/
def addSlice (data : List U8) (s : SliceState) : Run SliceState :=
  if hlen : data = [] then .ok s
  else
    match s.vec[s.index]? with
    | none => .error .outOfRange
    | some slice =>
      have hoff := s.off_lt
      have hfit : s.off + (data.take (ibltSize - s.off)).length ≤ ibltSize := by
        rw [List.length_take]; omega
      addSlice (data.drop (ibltSize - s.off)) (s.write slice (data.take (ibltSize - s.off)) hfit)
termination_by data.length
decreasing_by
  have := List.length_pos_iff.mpr hlen
  rw [List.length_drop]
  omega

/-- The number of slices, counted with the length prefix; the only assertion that can fail. -/
def numSlices (btx : BitcoinTx) : Run ℕ :=
  let n := TxSlice.numSlicesFor (1 + btx.length)
  if 1 < varintLen n then
    if n ≤ 0xffff then .ok (TxSlice.numSlicesFor (varintLen n + btx.length))
    else .error .assertion
  else .ok n

/-- The vector before anything is written to it. -/
def blankSlices (id : Txid48) (n : ℕ) : List TxSlice :=
  (List.range n).map fun i => ⟨id, BitVec.ofNat 16 i + id.fragBase H, zeroBytes ibltSize⟩

def sliceTx (btx : BitcoinTx) (id : Txid48) : Run (List TxSlice) := do
  let n ← numSlices btx
  let s ← addVarint (BitVec.ofNat 64 n) addSlice ⟨0, 0, blankSlices H id n, by decide⟩
  let s ← btx.addTx addSlice s
  if s.index = s.vec.length - 1 ∨ (s.index = s.vec.length ∧ s.off = 0) then
    return s.vec
  else
    throw .assertion

/-! ## Joining slices -/

/-- The body of the `try` of `rebuild_tx`; `none` where the source returns `false`. -/
def tryRebuild (A : Allocator) (contents : List U8) (first : TxSlice) :
    Run (Option BitcoinTx) := do
  let (n, cursor) ← pullVarint (some contents)
  if n ≠ (← first.slicesExpected) then
    return none
  let (btx, _) ← BitcoinTx.parse A cursor
  return some btx

/-- `catch (std::runtime_error &e) { return false; }` -/
def catchRuntimeError {α : Type} (r : Run (Option α)) : Run (Option α) :=
  match r with
  | .error (.runtimeError _) => .ok none
  | r => r

def rebuildTx (A : Allocator) (slices : List TxSlice) : Run (Option BitcoinTx) :=
  match slices with
  | [] => .error .outOfRange
  | first :: _ => catchRuntimeError (tryRebuild A (slices.flatMap fun s => s.contents.1) first)

/-! ## The order of slices -/

namespace TxSlice

/-- The key the order looks at. -/
def key (s : TxSlice) : ℕ := s.txidbits.toNat * 2 ^ 16 + s.fragid.toNat

theorem lt_iff_key (a b : TxSlice) : a.lt b ↔ a.key < b.key := by
  have ha := a.fragid.isLt
  have hb := b.fragid.isLt
  unfold lt key
  split_ifs with h
  · have hne : a.txidbits.toNat ≠ b.txidbits.toNat := fun e => h (BitVec.eq_of_toNat_eq e)
    rw [BitVec.lt_def]
    omega
  · have he : a.txidbits.toNat = b.txidbits.toNat := by rw [not_not.mp h]
    rw [BitVec.lt_def]
    omega

theorem key_lt (s : TxSlice) : s.key < 2 ^ 64 := by
  have h₁ := s.txidbits.isLt
  have h₂ := s.fragid.isLt
  unfold key
  omega

theorem key_eq_iff {a b : TxSlice} :
    a.key = b.key ↔ a.txidbits = b.txidbits ∧ a.fragid = b.fragid := by
  have ha := a.fragid.isLt
  have hb := b.fragid.isLt
  unfold key
  constructor
  · intro h
    exact ⟨BitVec.eq_of_toNat_eq (by omega), BitVec.eq_of_toNat_eq (by omega)⟩
  · rintro ⟨h₁, h₂⟩
    rw [h₁, h₂]

instance : IsTrans TxSlice lt :=
  ⟨fun a b c => by simp only [lt_iff_key]; exact lt_trans⟩

instance : Std.Irrefl lt := ⟨fun a => by simp [lt_iff_key]⟩

/-- To a set, slices with the same id and the same fragment id are one slice. -/
theorem equiv_iff {a b : TxSlice} :
    OrdSet.Equiv lt a b ↔ a.txidbits = b.txidbits ∧ a.fragid = b.fragid := by
  unfold OrdSet.Equiv
  rw [lt_iff_key, lt_iff_key, ← key_eq_iff]
  omega

end TxSlice

/-- The first byte of such an id is the version. -/
theorem txid48_headTxid (seed : U64) (v : U8) :
    BitVec.ofNat 8 (txid48 headHashes seed (headTxid v)).toNat = v := by
  have hid : txid48 headHashes seed (headTxid v) =
      BitVec.ofNat 48 (v.toNat + 256 * ofLE (List.replicate 5 v)) := rfl
  have hv := v.isLt
  refine BitVec.eq_of_toNat_eq ?_
  rw [hid, BitVec.toNat_ofNat, BitVec.toNat_ofNat]
  omega

end BitcoinIblt
