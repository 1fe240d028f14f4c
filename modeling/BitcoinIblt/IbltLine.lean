import BitcoinIblt.WireMessage
import BitcoinIblt.Hex

/-!
# The table as a line of text

The line `iblt,<hex>` between the block line and the mempool lines. `iblt-encode.cpp` concatenates
the number of buckets as a varint, the seed in a field of 16 bytes and what `raw_iblt::write`
returns; `read_iblt` of `iblt-decode.cpp` walks over the same bytes with a pointer, and makes the
table as large as the varint says before it looks at the bytes of the table. `raw_iblt::read`
refuses every length but the right one, so that a payload is accepted by its length
(`iblt_line_round_trip`).
-/

namespace BitcoinIblt

open LittleEndian StickyParser

/-! ## The code -/

/-- The constructor `raw_iblt(size_t size)` allocates both vectors. -/
def RawIblt.new (A : Allocator) (size : ℕ) : Run (RawIblt size) :=
  if A size TxSlice.size = false ∨ A size RawIblt.sizeofCount = false then .error .lengthError
  else .ok (RawIblt.blank size)

/-- `u8 seedstr[16] = { 0 }; memcpy(seedstr, &seed, sizeof(seed));` -/
def seedStr (seed : U64) : List U8 := overwrite (List.replicate 16 0) 0 (toLE 8 seed.toNat)

/-- `encoded` -/
def encodeIblt (buckets seed : U64) (riblt : RawIblt buckets.toNat) : List U8 :=
  Id.run (addVarint buckets addLinearize []) ++ seedStr seed ++ riblt.write

def ibltWord : List Char := ['i', 'b', 'l', 't']

/-- `std::cout << "iblt," << hexstr << std::endl;` -/
def writeIblt (buckets seed : U64) (riblt : RawIblt buckets.toNat) : List Char :=
  let encoded := encodeIblt buckets seed riblt
  -- `hex_encode` has room for all digits, and `hexstr` is always written
  let hexstr := (hexEncode encoded (hexStrSize encoded.length)).getD []
  ibltWord ++ [','] ++ hexstr ++ ['\n']

/-- `*ibltslices`, `*seed` and the table. -/
structure ReadIblt where
  ibltslices : U64
  seed : U64
  riblt : RawIblt ibltslices.toNat

/-- The end of `read_iblt`, on the bytes of the line. -/
def readIbltData (A : Allocator) (data : List U8) : Run ReadIblt := do
  let (ibltslices, p) ← pullVarint (some data)
  match p with
  | none => throw (.runtimeError "Bad iblt size")
  | some p =>
    if p.length < 16 then throw (.runtimeError "Bad iblt seed")
    else
      let seed := BitVec.ofNat 64 (ofLE (p.take 8))
      let riblt ← RawIblt.new A ibltslices.toNat
      let (complete, riblt) := riblt.read (p.drop 16)
      if complete then return ⟨ibltslices, seed, riblt⟩
      else throw (.runtimeError "Bad iblt")

/-- `u8 data[ibltsize]`, and what follows. -/
def readIbltHex (A : Allocator) (iblthex : List Char) : Run ReadIblt :=
  match hexDecode iblthex (hexDataSize iblthex.length) with
  | none => .error (.runtimeError "Bad iblt hex")
  | some data => readIbltData A data.1

/-- `read_iblt`, or `none` "if they choose not to IBLT encode". -/
def readIblt (A : Allocator) (s : IStream) : Run (Option ReadIblt × IStream) :=
  let (c, s) := s.peek
  if c ≠ some 'i' then .ok (none, s)
  else
    let (ibltstr, s) := s.getline ','
    if ibltstr ≠ ibltWord then .error (.runtimeError "Bad iblt line")
    else
      let (iblthex, s) := s.getline '\n'
      if s.fail then .error (.runtimeError "Bad iblt hex line")
      else do
        let r ← readIbltHex A iblthex
        return (some r, s)

/-! ## The bytes of the line -/

/-- Both vectors of a table of this size can be allocated. -/
def Allocator.Table (A : Allocator) (size : ℕ) : Prop :=
  A size TxSlice.size = true ∧ A size RawIblt.sizeofCount = true

variable {A : Allocator}

theorem RawIblt.new_ok {size : ℕ} (h : A.Table size) : RawIblt.new A size = .ok (blank size) := by
  rw [new, if_neg]
  rw [h.1, h.2]
  decide

theorem seedStr_eq (seed : U64) : seedStr seed = toLE 8 seed.toNat ++ List.replicate 8 0 := by
  rw [seedStr, overwrite_zero, toLE_length]
  rfl

/-- What a table, its size and its seed are written as is read back. -/
theorem readIbltData_encodeIblt (buckets seed : U64) (riblt : RawIblt buckets.toNat)
    (h : A.Table buckets.toNat) :
    readIbltData A (encodeIblt buckets seed riblt) = .ok ⟨buckets, seed, riblt⟩ := by
  have hdata : encodeIblt buckets seed riblt =
      varintBytes buckets ++ (seedStr seed ++ riblt.tableBytes) := by
    rw [encodeIblt, riblt.write_eq, List.append_assoc]
    rfl
  have hlen : (seedStr seed).length = 16 := by rw [seedStr_eq]; simp
  have htake : (seedStr seed ++ riblt.tableBytes).take 8 = toLE 8 seed.toNat := by
    rw [seedStr_eq, List.append_assoc, List.take_left' (toLE_length _ _)]
  have hdrop : (seedStr seed ++ riblt.tableBytes).drop 16 = riblt.tableBytes :=
    List.drop_left' hlen
  rw [readIbltData, hdata, (reads_varint buckets).full, ok_bind]
  dsimp only
  rw [if_neg (by rw [List.length_append]; omega), RawIblt.new_ok h, ok_bind, hdrop,
    RawIblt.read_tableBytes, htake, ofNat_ofLE_toLE (by decide)]
  rfl

/-- The bytes of one bucket in a table: its count and its slice. -/
theorem table_length (size : ℕ) :
    size * RawIblt.sizeofCount + size * TxSlice.size = size * (2 + 8 + ibltSize) := by
  rw [← Nat.mul_add]
  rfl

/-- A payload is accepted if what follows the varint is as long as the seed and the table. -/
theorem readIbltData_length {data p : List U8} {ibltslices : U64}
    (hv : pullVarint (some data) = .ok (ibltslices, some p)) (h : A.Table ibltslices.toNat) :
    if p.length = 16 + ibltslices.toNat * (2 + 8 + ibltSize) then
      ∃ r, readIbltData A data = .ok r ∧ r.ibltslices = ibltslices
    else ∃ what, readIbltData A data = .error (.runtimeError what) := by
  have hread : ∀ (hp : ¬ p.length < 16), readIbltData A data =
      if ((RawIblt.blank ibltslices.toNat).read (p.drop 16)).1 then
        .ok ⟨ibltslices, BitVec.ofNat 64 (ofLE (p.take 8)),
          ((RawIblt.blank ibltslices.toNat).read (p.drop 16)).2⟩
      else .error (.runtimeError "Bad iblt") := by
    intro hp
    rw [readIbltData, hv, ok_bind]
    dsimp only
    rw [if_neg hp, RawIblt.new_ok h]
    rfl
  split_ifs with hlen
  · have htable : (p.drop 16).length = ibltslices.toNat * RawIblt.sizeofCount +
        ibltslices.toNat * TxSlice.size := by
      rw [List.length_drop, hlen, table_length, Nat.add_sub_cancel_left]
    have hcomplete : ((RawIblt.blank ibltslices.toNat).read (p.drop 16)).1 = true := by
      rw [RawIblt.read, dif_pos htable]
    exact ⟨_, by rw [hread (by omega), if_pos hcomplete], rfl⟩
  · by_cases hp : p.length < 16
    · refine ⟨"Bad iblt seed", ?_⟩
      rw [readIbltData, hv, ok_bind]
      exact if_pos hp
    · have htable : (p.drop 16).length ≠ ibltslices.toNat * RawIblt.sizeofCount +
          ibltslices.toNat * TxSlice.size := by
        rw [List.length_drop, table_length]
        omega
      refine ⟨"Bad iblt", ?_⟩
      rw [hread hp, RawIblt.read_length _ htable]
      rfl

/-! ## The line -/

open IStream

/-- A line with digits is read as the bytes that they stand for. -/
theorem readIblt_line {str : List Char} {data : Bytes (hexDataSize str.length)}
    (h : hexDecode str (hexDataSize str.length) = some data) (rest : List Char) :
    readIblt A (ofText (ibltWord ++ ',' :: (str ++ '\n' :: rest))) =
      readIbltData A data.1 >>= fun r => .ok (some r, ofText rest) := by
  obtain ⟨hpeek, hword⟩ := peek_getline ibltWord ',' (c := 'i') rfl (by decide)
    (str ++ '\n' :: rest)
  have hline := getline_append (newline_not_mem_of_hexDecode h) rest
  have hhex : readIbltHex A str = readIbltData A data.1 := by rw [readIbltHex, h]
  simp only [readIblt, hpeek, hword, hline, hhex]
  rfl

theorem readIblt_writeIblt (buckets seed : U64) (riblt : RawIblt buckets.toNat)
    (h : A.Table buckets.toNat) (rest : List Char) :
    readIblt A (ofText (writeIblt buckets seed riblt ++ rest)) =
      .ok (some ⟨buckets, seed, riblt⟩, ofText rest) := by
  let encoded := encodeIblt buckets seed riblt
  have hsize : encoded.length = hexDataSize (hexText encoded).length := by
    rw [length_hexText, hexDataSize, Nat.mul_div_cancel_left _ (by decide)]
  have htext : writeIblt buckets seed riblt ++ rest =
      ibltWord ++ ',' :: (hexText encoded ++ '\n' :: rest) := by
    simp only [writeIblt, hexEncode_eq (le_refl (hexStrSize encoded.length)), Option.getD_some,
      List.append_assoc, List.cons_append, List.nil_append, encoded]
  rw [htext, readIblt_line (hexDecode_hexText hsize)]
  show readIbltData A (encodeIblt buckets seed riblt) >>= _ = _
  rw [readIbltData_encodeIblt buckets seed riblt h]
  rfl

/-- **The line of the table.** What `iblt-encode` prints is read back; and a payload whose varint
says a size below `2 ^ 48` is accepted if it is exactly as long as that varint, the seed and the
table, and throws if it is not, or if it ends within the varint. -/
theorem iblt_line_round_trip (A : Allocator) :
    (∀ (buckets seed : U64) (riblt : RawIblt buckets.toNat) (rest : List Char),
      A.Table buckets.toNat →
        readIblt A (ofText (writeIblt buckets seed riblt ++ rest)) =
          .ok (some ⟨buckets, seed, riblt⟩, ofText rest)) ∧
    (∀ (str : List Char) (data : Bytes (hexDataSize str.length)) (ibltslices : U64) (p : List U8)
      (rest : List Char), hexDecode str (hexDataSize str.length) = some data →
        pullVarint (some data.1) = .ok (ibltslices, some p) → ibltslices.toNat < 2 ^ 48 →
        A.Table ibltslices.toNat →
        let varintLength := data.1.length - p.length
        if data.1.length = varintLength + 16 + ibltslices.toNat * (2 + 8 + ibltSize) then
          ∃ r, readIblt A (ofText (ibltWord ++ ',' :: (str ++ '\n' :: rest))) =
            .ok (some r, ofText rest) ∧ r.ibltslices = ibltslices
        else ∃ what, readIblt A (ofText (ibltWord ++ ',' :: (str ++ '\n' :: rest))) =
          .error (.runtimeError what)) ∧
    ∀ (str : List Char) (data : Bytes (hexDataSize str.length)) (ibltslices : U64)
      (rest : List Char), hexDecode str (hexDataSize str.length) = some data →
        pullVarint (some data.1) = .ok (ibltslices, none) →
          ∃ what, readIblt A (ofText (ibltWord ++ ',' :: (str ++ '\n' :: rest))) =
            .error (.runtimeError what) := by
  refine ⟨fun buckets seed riblt rest h => readIblt_writeIblt buckets seed riblt h rest,
    fun str data ibltslices p rest hhex hv _ hA => ?_, fun str data ibltslices rest hhex hv => ?_⟩
  swap
  · refine ⟨"Bad iblt size", ?_⟩
    rw [readIblt_line hhex, readIbltData, hv]
    rfl
  have hle := (pullVarint_suffix hv).length_le
  have hiff : data.1.length = data.1.length - p.length + 16 +
      ibltslices.toNat * (2 + 8 + ibltSize) ↔
        p.length = 16 + ibltslices.toNat * (2 + 8 + ibltSize) := by omega
  have hdata := readIbltData_length hv hA
  rw [readIblt_line hhex]
  simp only [hiff]
  split_ifs at hdata ⊢
  · obtain ⟨r, hr, hsize⟩ := hdata
    exact ⟨r, by rw [hr, ok_bind], hsize⟩
  · obtain ⟨what, hwhat⟩ := hdata
    exact ⟨what, by rw [hwhat]; rfl⟩

/-- A blank table of one bucket, under the seed one, is read back; a payload of one byte is too
short for any table. -/
theorem iblt_line_round_trip_blank :
    readIblt (fun _ _ => true) (ofText (writeIblt 1 1 (RawIblt.blank 1) ++ [])) =
        .ok (some ⟨1, 1, RawIblt.blank 1⟩, ofText []) ∧
      ∃ what, readIblt (fun _ _ => true) (ofText (ibltWord ++ ',' :: (['0', '0'] ++ ['\n']))) =
        .error (.runtimeError what) := by
  have h := iblt_line_round_trip fun _ _ => true
  refine ⟨h.1 1 1 (RawIblt.blank 1) [] ⟨rfl, rfl⟩, ?_⟩
  have hshort := h.2.1 ['0', '0'] ⟨[0], rfl⟩ 0 [] [] rfl rfl (by decide) ⟨rfl, rfl⟩
  exact hshort

end BitcoinIblt
