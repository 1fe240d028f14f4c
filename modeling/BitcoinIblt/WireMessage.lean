import BitcoinIblt.RawIblt
import BitcoinIblt.BitsetCodec

/-!
# The wire message

`wire_encode` and `wire_decode` of `iblt-test.cpp`: seed, fee and number of buckets as varints, the
coinbase transaction, the two sets of bit strings, and the bytes of the table as `raw_iblt::write`
lays them out, all counts before all buckets. The table is read by its exact length, so the message
ends where it should (`wire_round_trip`).
-/

namespace BitcoinIblt

open LittleEndian StickyParser

/-! ## The table -/

/-- `memcpy(as_bytes(), bytes, size())` -/
def TxSlice.ofBytes (bytes : Bytes TxSlice.size) : TxSlice where
  txidbits := BitVec.ofNat 48 (ofLE (bytes.1.take 6))
  fragid := BitVec.ofNat 16 (ofLE ((bytes.1.drop 6).take 2))
  contents := ⟨bytes.1.drop 8, by rw [List.length_drop, bytes.2]; rfl⟩

/-- `memcpy(copy, p + off, n)` -/
def copyFrom (p : List U8) (off n : ℕ) (h : off + n ≤ p.length) : Bytes n :=
  ⟨(p.drop off).take n, by rw [List.length_take, List.length_drop]; omega⟩

namespace RawIblt

variable {size : ℕ}

/-- `sizeof(counts[0])` -/
def sizeofCount : ℕ := 2

/-- The bytes of `counts` in memory. -/
def countBytes (r : RawIblt size) : List U8 := r.counts.toList.flatMap fun c => toLE 2 c.toNat

/-- `raw_iblt::write`. The call `buckets[0].size()` is a static one: it looks at no bucket. -/
def write (r : RawIblt size) : List U8 :=
  let bucketsLen := size * TxSlice.size
  let countsLen := size * sizeofCount
  let vec := overwrite (List.replicate (countsLen + bucketsLen) 0) 0 r.countBytes
  r.buckets.toList.zipIdx.foldl (fun vec bucket =>
    overwrite vec (countsLen + bucket.2 * TxSlice.size) bucket.1.asBytes) vec

theorem block_fits {i n : ℕ} (h : i < n) (k : ℕ) : i * k + k ≤ n * k := by
  rw [← Nat.succ_mul]
  exact Nat.mul_le_mul_right k h

/-- What `raw_iblt::read` leaves in the table when the length is right. -/
def copyIn (p : List U8) (h : p.length = size * sizeofCount + size * TxSlice.size) :
    RawIblt size where
  counts := Vector.ofFn fun i =>
    BitVec.ofNat 16 (ofLE (copyFrom p (i * sizeofCount) sizeofCount (by
      have := block_fits i.isLt sizeofCount
      omega)).1)
  buckets := Vector.ofFn fun i =>
    TxSlice.ofBytes (copyFrom p (size * sizeofCount + i * TxSlice.size) TxSlice.size (by
      have := block_fits i.isLt TxSlice.size
      omega))

/-- `raw_iblt::read`; the length must be exact. -/
def read (r : RawIblt size) (p : List U8) : Bool × RawIblt size :=
  if h : p.length = size * sizeofCount + size * TxSlice.size then (true, copyIn p h)
  else (false, r)

end RawIblt

/-! ## The message -/

/-- What a message is made of. -/
structure WireMessage where
  coinbase : BitcoinTx
  minFeePerByte : U64
  seed : U64
  added : TxbitsSet
  removed : TxbitsSet
  size : ℕ
  iblt : RawIblt size

def wireEncode (m : WireMessage) : Run (List U8) := do
  let arr := Id.run (addVarint m.seed addLinearize [])
  let arr := Id.run (addVarint m.minFeePerByte addLinearize arr)
  let arr := Id.run (addVarint (BitVec.ofNat 64 m.size) addLinearize arr)
  let arr := Id.run (m.coinbase.addTx addLinearize arr)
  let arr ← addBitset arr m.added
  let arr ← addBitset arr m.removed
  return Id.run (addLinearize m.iblt.write arr)

/-- The largest number of buckets that is not "bigger than 100M". -/
def maxBuckets : ℕ := 100 * 1024 * 1024 / ibltSize

/-- The last lines of `wire_decode`: the table must be exactly what is left. -/
def wireDecodeIblt (seed minFeePerByte : U64) (size : ℕ) (coinbase : BitcoinTx)
    (added removed : TxbitsSet) (p : Cursor U8) : Run WireMessage := do
  let (complete, iblt) := (RawIblt.blank size).read (p.getD [])
  if complete then return ⟨coinbase, minFeePerByte, seed, added, removed, size, iblt⟩
  else throw (.runtimeError "bad iblt")

/-- The second half of `wire_decode`: the sets and the table. -/
def wireDecodeTable (A : Allocator) (past : U8) (seed minFeePerByte size : U64)
    (coinbase : BitcoinTx) (p : Cursor U8) (added removed : TxbitsSet) : Run WireMessage := do
  let added ← decodeBitset A past p added
  if added.result = false then throw (.runtimeError "bad bitset")
  else
    let removed ← decodeBitset A past added.cursor removed
    if removed.result = false then throw (.runtimeError "bad bitset")
    else if maxBuckets < size.toNat then throw (.runtimeError "bad size")
    else
      wireDecodeIblt seed minFeePerByte size.toNat coinbase added.bset removed.bset removed.cursor

/-- The sets are reference arguments: `added` and `removed` are what they hold before the call. -/
def wireDecode (A : Allocator) (past : U8) (incoming : List U8) (added removed : TxbitsSet) :
    Run WireMessage := do
  let (seed, p) ← pullVarint (some incoming)
  let (minFeePerByte, p) ← pullVarint p
  let (size, p) ← pullVarint p
  let (coinbase, p) ← BitcoinTx.parse A p
  wireDecodeTable A past seed minFeePerByte size coinbase p added removed

/-! ## The bytes of the table -/

namespace TxSlice

theorem length_asBytes (s : TxSlice) : s.asBytes.length = size := by
  simp [asBytes, s.contents.2, size, ← Nat.add_assoc]

theorem ofBytes_asBytes (s : TxSlice) : ofBytes ⟨s.asBytes, s.length_asBytes⟩ = s := by
  refine TxSlice.ext ?_ ?_ (Subtype.ext ?_)
  · have htake : s.asBytes.take 6 = toLE 6 s.txidbits.toNat := by
      rw [asBytes, List.append_assoc, List.take_left' (toLE_length _ _)]
    simp only [ofBytes, htake]
    exact ofNat_ofLE_toLE (by decide) _
  · have htake : (s.asBytes.drop 6).take 2 = toLE 2 s.fragid.toNat := by
      rw [asBytes, List.append_assoc, List.drop_left' (toLE_length _ _),
        List.take_left' (toLE_length _ _)]
    simp only [ofBytes, htake]
    exact ofNat_ofLE_toLE (by decide) _
  · exact List.drop_left' (by simp)

end TxSlice

namespace RawIblt

variable {size : ℕ} (r : RawIblt size)

/-- All counts, then all buckets. -/
def tableBytes : List U8 := r.countBytes ++ r.buckets.toList.flatMap TxSlice.asBytes

theorem length_countBytes : r.countBytes.length = size * sizeofCount := by
  rw [countBytes, length_flatMap_blocks (fun c : S16 => toLE_length 2 c.toNat),
    Vector.length_toList]
  rfl

theorem length_tableBytes :
    r.tableBytes.length = size * sizeofCount + size * TxSlice.size := by
  rw [tableBytes, List.length_append, length_countBytes,
    length_flatMap_blocks TxSlice.length_asBytes, Vector.length_toList]

/-- `write` lays out the counts and the buckets one after the other. -/
theorem write_eq : r.write = r.tableBytes := by
  have hcounts := r.length_countBytes
  have htable := r.length_tableBytes
  have hpart : 0 + r.countBytes.length ≤
      (List.replicate (size * sizeofCount + size * TxSlice.size) (0 : U8)).length := by
    rw [List.length_replicate]
    omega
  have hfold := foldl_overwrite TxSlice.length_asBytes r.buckets.toList (size * sizeofCount) 0
    (overwrite (List.replicate (size * sizeofCount + size * TxSlice.size) 0) 0 r.countBytes)
    (by rw [overwrite_length hpart, List.length_replicate, Vector.length_toList, Nat.zero_add])
  have hwhole := overwrite_overwrite (r.buckets.toList.flatMap TxSlice.asBytes) hpart
  have hall : overwrite (List.replicate (size * sizeofCount + size * TxSlice.size) 0) 0
      r.tableBytes = r.tableBytes := by
    rw [overwrite_zero, List.drop_eq_nil_of_le, List.append_nil]
    rw [List.length_replicate, htable]
  rw [Nat.zero_add, hcounts] at hwhole
  rw [Nat.zero_mul, Nat.add_zero, hwhole] at hfold
  rw [write]
  exact hfold.trans hall

theorem copyIn_tableBytes : copyIn r.tableBytes r.length_tableBytes = r := by
  refine RawIblt.ext (Vector.ext fun i hi => ?_) (Vector.ext fun i hi => ?_)
  · simp only [copyIn, Vector.getElem_ofFn]
    have hblock : copyFrom r.tableBytes (size * sizeofCount + i * TxSlice.size) TxSlice.size
        (by have := block_fits hi TxSlice.size; rw [length_tableBytes]; omega) =
          ⟨r.buckets[i].asBytes, TxSlice.length_asBytes _⟩ := by
      refine Subtype.ext ?_
      have h := block_of_flatMap TxSlice.length_asBytes r.buckets.toList (i := i) (by simpa) []
      rw [List.append_nil, Vector.getElem_toList] at h
      show ((r.countBytes ++ _).drop (size * sizeofCount + i * TxSlice.size)).take _ = _
      rw [← r.length_countBytes, List.drop_length_add_append]
      exact h
    rw [hblock, TxSlice.ofBytes_asBytes]
  · simp only [copyIn, Vector.getElem_ofFn]
    have h := block_of_flatMap (fun c : S16 => toLE_length 2 c.toNat) r.counts.toList (i := i)
      (by simpa) (r.buckets.toList.flatMap TxSlice.asBytes)
    rw [Vector.getElem_toList] at h
    have hblock : (copyFrom r.tableBytes (i * sizeofCount) sizeofCount
        (by have := block_fits hi sizeofCount; rw [length_tableBytes]; omega)).1 =
          toLE 2 r.counts[i].toNat := h
    rw [hblock]
    exact ofNat_ofLE_toLE (by decide) _

theorem read_tableBytes (r₀ : RawIblt size) : r₀.read r.tableBytes = (true, r) := by
  rw [read, dif_pos r.length_tableBytes, copyIn_tableBytes]

theorem read_length {p : List U8} (hp : p.length ≠ size * sizeofCount + size * TxSlice.size) :
    r.read p = (false, r) := by
  rw [read, dif_neg hp]

end RawIblt

/-! ## The round trip -/

namespace WireMessage

variable (m : WireMessage)

/-- The sets are those of a `txbitsSet` and the number of buckets is one that is accepted. -/
structure Sendable : Prop where
  added : m.added.WellFormed
  removed : m.removed.WellFormed
  one_le : 1 ≤ m.size
  size_le : m.size ≤ maxBuckets

/-- The same message, but for the iteration order of the sets. -/
structure Same (m m' : WireMessage) : Prop where
  coinbase : m.coinbase = m'.coinbase
  minFeePerByte : m.minFeePerByte = m'.minFeePerByte
  seed : m.seed = m'.seed
  added : m.added.Same m'.added
  removed : m.removed.Same m'.removed
  table : (⟨m.size, m.iblt⟩ : Σ size, RawIblt size) = ⟨m'.size, m'.iblt⟩

/-- The bytes before the sets. -/
def head : List U8 :=
  varintBytes m.seed ++ (varintBytes m.minFeePerByte ++
    (varintBytes (BitVec.ofNat 64 m.size) ++ txBytes m.coinbase))

theorem wireEncode_eq (h : m.Sendable) :
    ∃ (added : BitsetEncoding m.added) (removed : BitsetEncoding m.removed),
      wireEncode m = .ok (m.head ++ (added.bytes ++ (removed.bytes ++ m.iblt.tableBytes))) := by
  obtain ⟨added, -, hadded⟩ := addBitset_ok h.added
  obtain ⟨removed, -, hremoved⟩ := addBitset_ok h.removed
  refine ⟨added, removed, ?_⟩
  have hchunk : Chunked addLinearize := fun a b s => by simp [addLinearize]
  simp only [wireEncode, addTx_eq hchunk, hadded, hremoved, m.iblt.write_eq, ok_bind]
  simp only [head, addVarint, addLinearize, Id.run]
  simp [pure, Except.pure]

section Decode

variable {A : Allocator} (hA : A.Succeeds) (past : U8) (added₀ removed₀ : TxbitsSet)

include hA

/-- The fields before the sets are read, whatever follows them. -/
theorem decode_head (tail : List U8) :
    wireDecode A past (m.head ++ tail) added₀ removed₀ =
      wireDecodeTable A past m.seed m.minFeePerByte (BitVec.ofNat 64 m.size) m.coinbase
        (some tail) added₀ removed₀ := by
  simp only [wireDecode, head, List.append_assoc, (reads_varint _).full, ok_bind, parse_append hA]

/-- A message that ends in those fields leaves a NULL cursor, and the parser throws. -/
theorem decode_head_short {pre : List U8} (hpre : pre <+: m.head) (hne : pre ≠ m.head) :
    wireDecode A past pre added₀ removed₀ = .error (.runtimeError "bad tx") := by
  have hnone : pullVarint none = .ok (0, none) := rfl
  rw [head] at hpre hne
  rcases proper_prefix_append hpre hne with ⟨h, hne⟩ | ⟨pre, rfl, hpre, hne⟩
  · obtain ⟨v, hv⟩ := (reads_varint _).short pre h hne
    simp only [wireDecode, hv, hnone, ok_bind, parse_none hA]
    rfl
  rcases proper_prefix_append hpre hne with ⟨h, hne⟩ | ⟨pre, rfl, hpre, hne⟩
  · obtain ⟨v, hv⟩ := (reads_varint _).short pre h hne
    simp only [wireDecode, (reads_varint _).full, hv, hnone, ok_bind, parse_none hA]
    rfl
  rcases proper_prefix_append hpre hne with ⟨h, hne⟩ | ⟨pre, rfl, hpre, hne⟩
  · obtain ⟨v, hv⟩ := (reads_varint _).short pre h hne
    simp only [wireDecode, (reads_varint _).full, hv, ok_bind, parse_none hA]
    rfl
  · simp only [wireDecode, (reads_varint _).full, ok_bind, parse_short hA _ hpre hne]
    rfl

variable {m} (h : m.Sendable) (added : BitsetEncoding m.added) (removed : BitsetEncoding m.removed)

/-- Every allocation that reading a set takes succeeds. -/
theorem fits (bset : TxbitsSet) : bset.Fits A := ⟨fun n _ => hA n 8, fun _ _ => hA _ 8⟩

include h

/-- The sets are read, and the table is read from exactly what follows them. -/
theorem decode_table (tail : List U8) :
    ∃ a r : TxbitsSet, a.Same m.added ∧ r.Same m.removed ∧
      wireDecode A past (m.head ++ (added.bytes ++ (removed.bytes ++ tail))) added₀ removed₀ =
        wireDecodeIblt m.seed m.minFeePerByte m.size m.coinbase a r (some tail) := by
  obtain ⟨ra, hra, hta, hsa, hca⟩ := added.decode_append h.added (added.fits_of_bset (fits hA _))
    past added₀ (removed.bytes ++ tail)
  obtain ⟨rr, hrr, htr, hsr, hcr⟩ := removed.decode_append h.removed
    (removed.fits_of_bset (fits hA _)) past removed₀ tail
  have hsize : (BitVec.ofNat 64 m.size).toNat = m.size := by
    have hle := h.size_le
    rw [maxBuckets, ibltSize] at hle
    rw [BitVec.toNat_ofNat, Nat.mod_eq_of_lt (by omega)]
  have htrue : ¬ true = false := by decide
  refine ⟨ra.bset, rr.bset, hsa, hsr, ?_⟩
  rw [decode_head m hA, wireDecodeTable, hra, ok_bind, hta, if_neg htrue, hca, hrr, ok_bind, htr,
    if_neg htrue, hsize, if_neg (Nat.not_lt.mpr h.size_le), hcr]

/-- A message that ends in the sets is refused. -/
theorem decode_sets_short {pre : List U8} (hpre : pre <+: added.bytes ++ removed.bytes)
    (hne : pre ≠ added.bytes ++ removed.bytes) :
    wireDecode A past (m.head ++ pre) added₀ removed₀ = .error (.runtimeError "bad bitset") := by
  rw [decode_head m hA, wireDecodeTable]
  rcases proper_prefix_append hpre hne with ⟨hpre, hne⟩ | ⟨pre, rfl, hpre, hne⟩
  · obtain ⟨ra, hra, hta⟩ := added.decode_short h.added (fits hA _) past added₀ hpre hne
    rw [hra, ok_bind, if_pos hta]
    rfl
  · obtain ⟨ra, hra, hta, -, hca⟩ := added.decode_append h.added
      (added.fits_of_bset (fits hA _)) past added₀ pre
    obtain ⟨rr, hrr, htr⟩ := removed.decode_short h.removed (fits hA _) past removed₀ hpre hne
    have htrue : ¬ true = false := by decide
    rw [hra, ok_bind, hta, if_neg htrue, hca, hrr, ok_bind, if_pos htr]
    rfl

/-- What follows the sets is refused if it is not as long as the table. -/
theorem decode_length {tail : List U8} (hlen : tail.length ≠ m.iblt.tableBytes.length) :
    wireDecode A past (m.head ++ (added.bytes ++ (removed.bytes ++ tail))) added₀ removed₀ =
      .error (.runtimeError "bad iblt") := by
  obtain ⟨a, r, -, -, hr⟩ := decode_table hA past added₀ removed₀ h added removed tail
  rw [RawIblt.length_tableBytes] at hlen
  rw [hr, wireDecodeIblt, Option.getD_some, RawIblt.read_length _ hlen]
  rfl

/-- The whole message is read back. -/
theorem decode_whole :
    ∃ m', wireDecode A past (m.head ++ (added.bytes ++ (removed.bytes ++ m.iblt.tableBytes)))
      added₀ removed₀ = .ok m' ∧ m'.Same m := by
  obtain ⟨a, r, ha, hr, hdec⟩ :=
    decode_table hA past added₀ removed₀ h added removed m.iblt.tableBytes
  refine ⟨⟨m.coinbase, m.minFeePerByte, m.seed, a, r, m.size, m.iblt⟩, ?_,
    rfl, rfl, rfl, ha, hr, rfl⟩
  rw [hdec, wireDecodeIblt, Option.getD_some, RawIblt.read_tableBytes]
  rfl

end Decode

end WireMessage

/-- **Round trip of the wire message.** `wire_decode` reads back what `wire_encode` writes, and
throws on every proper prefix of it and on everything longer, whatever byte lies past the end. -/
theorem wire_round_trip (A : Allocator) (hA : A.Succeeds) (past : U8) (m : WireMessage)
    (h : m.Sendable) (added₀ removed₀ : TxbitsSet) :
    ∃ enc, wireEncode m = .ok enc ∧
      (∃ m', wireDecode A past enc added₀ removed₀ = .ok m' ∧ m'.Same m) ∧
      (∀ pre, pre <+: enc → pre ≠ enc →
        ∃ what, wireDecode A past pre added₀ removed₀ = .error (.runtimeError what)) ∧
      ∀ suffix, suffix ≠ [] →
        ∃ what, wireDecode A past (enc ++ suffix) added₀ removed₀ =
          .error (.runtimeError what) := by
  obtain ⟨added, removed, henc⟩ := m.wireEncode_eq h
  refine ⟨_, henc, WireMessage.decode_whole hA past added₀ removed₀ h added removed,
    fun pre hpre hne => ?_, fun suffix hne => ?_⟩
  · rcases proper_prefix_append hpre hne with ⟨hpre, hne⟩ | ⟨pre, rfl, hpre, hne⟩
    · exact ⟨_, m.decode_head_short hA past added₀ removed₀ hpre hne⟩
    rw [← List.append_assoc] at hpre hne
    rcases proper_prefix_append hpre hne with ⟨hpre, hne⟩ | ⟨pre, rfl, hpre, hne⟩
    · exact ⟨_, WireMessage.decode_sets_short hA past added₀ removed₀ h added removed hpre hne⟩
    · have hlt : pre.length ≠ m.iblt.tableBytes.length := fun e => hne (hpre.eq_of_length e)
      rw [List.append_assoc added.bytes]
      exact ⟨_, WireMessage.decode_length hA past added₀ removed₀ h added removed hlt⟩
  · have hlen : (m.iblt.tableBytes ++ suffix).length ≠ m.iblt.tableBytes.length := by
      have := List.length_pos_iff.mpr hne
      rw [List.length_append]
      omega
    simp only [List.append_assoc]
    exact ⟨_, WireMessage.decode_length hA past added₀ removed₀ h added removed hlen⟩

theorem empty_wellFormed : TxbitsSet.empty.WellFormed := by
  refine ⟨rfl, fun i v hv => ?_⟩
  rw [TxbitsSet.strings_empty] at hv
  exact absurd hv List.not_mem_nil

/-- A message with two bit strings and a table of two buckets that hold a slice. -/
def headMessage : WireMessage :=
  ⟨headBtx 2 300, 5, 1, twoStrings, TxbitsSet.empty, 2,
    ⟨Vector.replicate 2 ⟨7, 3, zeroBytes ibltSize⟩, Vector.replicate 2 1⟩⟩

theorem wire_round_trip_headMessage : ∃ enc, wireEncode headMessage = .ok enc ∧
    (∃ m', wireDecode (fun _ _ => true) 0xFF enc TxbitsSet.empty TxbitsSet.empty = .ok m' ∧
      m'.Same headMessage) ∧
    (∃ what, wireDecode (fun _ _ => true) 0xFF enc.dropLast TxbitsSet.empty TxbitsSet.empty =
      .error (.runtimeError what)) ∧
    ∃ what, wireDecode (fun _ _ => true) 0xFF (enc ++ [0]) TxbitsSet.empty TxbitsSet.empty =
      .error (.runtimeError what) := by
  have hsend : headMessage.Sendable :=
    ⟨twoStrings_wellFormed, empty_wellFormed, by decide, by decide⟩
  obtain ⟨enc, henc, hdec, hprefix, hsuffix⟩ := wire_round_trip (fun _ _ => true) (fun _ _ => rfl)
    0xFF headMessage hsend TxbitsSet.empty TxbitsSet.empty
  have hne : enc.dropLast ≠ enc := by
    obtain ⟨added, removed, henc'⟩ := headMessage.wireEncode_eq hsend
    obtain rfl := Except.ok.inj (henc.symm.trans henc')
    intro h
    have hlen := congrArg List.length h
    have hpos : 0 < headMessage.head.length := by
      simp only [WireMessage.head, List.length_append, varintBytes_length]
      have := varintLen_pos headMessage.seed.toNat
      omega
    rw [List.length_dropLast, List.length_append] at hlen
    omega
  exact ⟨enc, henc, hdec, hprefix _ (List.dropLast_prefix enc) hne, hsuffix [0] (by decide)⟩

end BitcoinIblt
