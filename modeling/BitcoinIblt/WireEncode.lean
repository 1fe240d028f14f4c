import BitcoinIblt.BitcoinTx
import BitcoinIblt.Lib.Containers

/-!
# Sets of bit strings on the wire

`add_bitset` writes the smallest and the number of lengths in use, the number of strings of each
length, and all strings packed into bytes, lowest bit first. `decode_bitset` reads that back with
`pull_bit`, which dereferences its cursor before it looks at the number of bytes left; `past` is
what the byte past the end of the buffer holds.
-/

namespace BitcoinIblt

open StickyParser

/-- `txbitsSet`: entry `i` is for the strings of length `i`. -/
abbrev TxbitsSet := Vector (UnorderedSet (List Bool)) 49

namespace TxbitsSet

/-- `txbitsSet()` -/
def empty : TxbitsSet := Vector.replicate 49 UnorderedSet.empty

/-- `bset[i]`, for reading. -/
def entry (bset : TxbitsSet) (i : ℕ) : Run (UnorderedSet (List Bool)) :=
  if h : i < 49 then .ok bset[i] else .error .outOfRange

/-- `bset[i] = s` -/
def assign (bset : TxbitsSet) (i : ℕ) (s : UnorderedSet (List Bool)) : Run TxbitsSet :=
  if h : i < 49 then .ok (bset.set i s) else .error .outOfRange

end TxbitsSet

/-! ## Writing -/

/-- The scan for the smallest and the largest length in use. -/
def scanLengths (bset : TxbitsSet) : ℕ × ℕ :=
  (List.finRange 49).tail.foldl (fun (min, max) (i : Fin 49) =>
    if bset[i].size = 0 then (min, max)
    else (if i.val < min then i.val else min, if max < i.val then i.val else max)) (48, 0)

/-- `bits[bitoff / 8] |= (1 << (bitoff % 8))` -/
def setBit (bits : List U8) (bitoff : ℕ) : Run (List U8) :=
  match bits[bitoff / 8]? with
  | none => .error .outOfRange
  | some b => .ok (bits.set (bitoff / 8) (b ||| 1 <<< (bitoff % 8)))

/-- The innermost loop's body: one bit. The state is `bits` and `bitoff`. -/
def packBit (state : List U8 × ℕ) (b : Bool) : Run (List U8 × ℕ) := do
  let bits ← if b then setBit state.1 state.2 else pure state.1
  return (bits, state.2 + 1)

/-- The two inner loops: the strings of one length. -/
def packStrings (state : List U8 × ℕ) (s : UnorderedSet (List Bool)) : Run (List U8 × ℕ) :=
  s.toList.foldlM (fun state vec => vec.foldlM packBit state) state

def addBitset (arr : List U8) (bset : TxbitsSet) : Run (List U8) :=
  let (min, max) := scanLengths bset
  if max < min then
    return (arr ++ varintBytes 0) ++ varintBytes 0
  else do
    let lengths := List.range' min (max - min + 1)
    let arr := arr ++ varintBytes (BitVec.ofNat 64 min)
    let arr := arr ++ varintBytes (BitVec.ofNat 64 (max - min + 1))
    let (arr, numBits) ← lengths.foldlM (fun (arr, numBits) i => do
      let s ← bset.entry i
      return (arr ++ varintBytes (BitVec.ofNat 64 s.size), numBits + i * s.size)) (arr, 0)
    let (bits, bitoff) ← lengths.foldlM (fun state i => do
      let s ← bset.entry i
      packStrings state s) (List.replicate ((numBits + 7) / 8) 0, 0)
    if bitoff = numBits then return arr ++ bits else throw .assertion

/-! ## Reading -/

/-- The cursor and `bitoff`, and whether a byte past the end of the buffer has been read. -/
structure BitCursor where
  cursor : Cursor U8
  bitoff : Fin 8
  overread : Bool
  /-- between two bytes when the cursor is NULL -/
  aligned : cursor = none → bitoff = 0

/-- `pull_bit`: `**p & (1 << *bitoff)`, and on to the next byte after the last bit of this one. -/
def pullBit (past : U8) (c : BitCursor) : Bool × BitCursor :=
  match c.cursor with
  | none => (false, c)
  | some bytes =>
    let b := (bytes.headD past).getLsbD c.bitoff
    if c.bitoff = 7 then
      (b, ⟨if bytes = [] then none else some bytes.tail, 0, c.overread || bytes.isEmpty,
        fun _ => rfl⟩)
    else
      (b, ⟨some bytes, c.bitoff + 1, c.overread || bytes.isEmpty, fun h => by cases h⟩)

/-- The loop that reads one string of `n` bits. -/
def pullString (past : U8) : ℕ → BitCursor → List Bool × BitCursor
  | 0, c => ([], c)
  | n + 1, c =>
    let (b, c) := pullBit past c
    let (v, c) := pullString past n c
    (b :: v, c)

/-- The loop that reads `n` strings of length `i`; `false` when it returns `false`. -/
def pullStrings (past : U8) (i : ℕ) : ℕ → TxbitsSet → BitCursor → Run (Bool × TxbitsSet × BitCursor)
  | 0, bset, c => .ok (true, bset, c)
  | n + 1, bset, c => do
    let (v, c) := pullString past i c
    let s ← bset.entry i
    let bset ← bset.assign i (s.insert v)
    if c.cursor = none then return (false, bset, c)
    else pullStrings past i n bset c

/-- The loop over the lengths `i`, for `nums[i]` strings of each. -/
def pullLengths (past : U8) (nums : List U64) :
    List ℕ → TxbitsSet → BitCursor → Run (Bool × TxbitsSet × BitCursor)
  | [], bset, c => .ok (true, bset, c)
  | i :: is, bset, c =>
    match nums[i]? with
    | none => .error .outOfRange
    | some n => do
      let (go, bset, c) ← pullStrings past i n.toNat bset c
      if go then pullLengths past nums is bset c else return (false, bset, c)

/-- The last loop: the rest of the byte must be zero. -/
def skipPadding (past : U8) (c : BitCursor) : Bool × BitCursor :=
  if _h : c.bitoff = 0 then (true, c)
  else if (pullBit past c).1 then (false, (pullBit past c).2)
  else skipPadding past (pullBit past c).2
termination_by (8 - c.bitoff.val) % 8
decreasing_by
  obtain ⟨cursor, bitoff, overread, aligned⟩ := c
  cases cursor with
  | none => exact absurd (aligned rfl) _h
  | some bytes =>
    have h₁ : bitoff.val ≠ 0 := fun e => _h (Fin.ext e)
    by_cases h₇ : bitoff = 7
    · subst h₇
      simp [pullBit]
    · have h₂ : bitoff.val ≠ 7 := fun e => h₇ (Fin.ext e)
      have h₃ : (bitoff + 1).val = bitoff.val + 1 := by
        rw [Fin.val_add, Fin.val_one, Nat.mod_eq_of_lt (by omega)]
      simp only [pullBit, if_neg h₇, h₃]
      omega

/-- The loop that reads the counts; `bset[i]` becomes an empty set with room for `nums[i]`. -/
def pullNums (A : Allocator) :
    List ℕ → List U64 → TxbitsSet → Cursor U8 → Run (List U64 × TxbitsSet × Cursor U8)
  | [], nums, bset, p => .ok (nums, bset, p)
  | i :: is, nums, bset, p => do
    let (n, p) ← pullVarint p
    if nums.length ≤ i then throw .outOfRange
    else if A n.toNat 8 = false then throw .lengthError
    else
      let bset ← bset.assign i UnorderedSet.empty
      pullNums A is (nums.set i n) bset p

/-- The values of `i` in a loop `for (size_t i = min; i < min + num; i++)`. -/
def lengthRange (min num : U64) : List ℕ :=
  List.range' min.toNat ((min + num).toNat - min.toNat)

/-- What `decode_bitset` returns and leaves behind. -/
structure Decoded where
  result : Bool
  bset : TxbitsSet
  cursor : Cursor U8
  overread : Bool

/-- The second half of `decode_bitset`: the strings and the padding. -/
def decodeStrings (past : U8) (nums : List U64) (lengths : List ℕ) (bset : TxbitsSet)
    (p : List U8) : Run Decoded := do
  let (go, bset, c) ← pullLengths past nums lengths bset ⟨some p, 0, false, fun _ => rfl⟩
  if go then
    let (zero, c) := skipPadding past c
    return ⟨zero && c.cursor.isSome, bset, c.cursor, c.overread⟩
  else
    return ⟨false, bset, c.cursor, c.overread⟩

def decodeBitset (A : Allocator) (past : U8) (p : Cursor U8) (bset : TxbitsSet) : Run Decoded := do
  let (min, p) ← pullVarint p
  let (num, p) ← pullVarint p
  if 49 < num.toNat then
    return ⟨false, bset, p, false⟩
  else if A (min + num).toNat 8 = false then
    throw .lengthError
  else
    let (nums, bset, p) ← pullNums A (lengthRange min num) (List.replicate (min + num).toNat 0)
      TxbitsSet.empty p
    match p with
    | none => return ⟨false, bset, none, false⟩
    | some p => decodeStrings past nums (lengthRange min num) bset p

end BitcoinIblt
