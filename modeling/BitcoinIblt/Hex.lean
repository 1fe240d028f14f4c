import BitcoinIblt.BitcoinTx
import BitcoinIblt.Lib.IStream

/-!
# Hexadecimal

`hex_encode` and `hex_decode` of `ccan/str/hex`, and the two operators that print and read a txid,
last byte first. Decoding undoes encoding for buffers of every size (`hexDecode_hexText`), and a
txid is read back from its 64 digits whatever follows them (`readTxid_append`).
-/

namespace BitcoinIblt

/-! ## The code -/

def charToHex (c : Char) : Option U8 :=
  if '0' ≤ c ∧ c ≤ '9' then some (BitVec.ofNat 8 (c.toNat - '0'.toNat))
  else if 'a' ≤ c ∧ c ≤ 'f' then some (BitVec.ofNat 8 (c.toNat - 'a'.toNat + 10))
  else if 'A' ≤ c ∧ c ≤ 'F' then some (BitVec.ofNat 8 (c.toNat - 'A'.toNat + 10))
  else none

/-- `hex_decode`: the whole buffer, from all of the string. -/
def hexDecode : List Char → (bufsize : ℕ) → Option (Bytes bufsize)
  | c₁ :: c₂ :: str, n + 1 => do
    let v₁ ← charToHex c₁
    let v₂ ← charToHex c₂
    let p ← hexDecode str n
    return ⟨(v₁ <<< 4 ||| v₂) :: p.1, by rw [List.length_cons, p.2]⟩
  | [], 0 => some ⟨[], rfl⟩
  | _, _ => none

/-- `hexchar`; its argument is half a byte, so it does not abort. -/
def hexchar (val : BitVec 4) : Char :=
  if val < 10 then Char.ofNat ('0'.toNat + val.toNat)
  else Char.ofNat ('a'.toNat + val.toNat - 10)

/-- The two digits of a byte. -/
def hexByte (c : U8) : List Char := [hexchar (c.extractLsb' 4 4), hexchar (c.extractLsb' 0 4)]

/-- `hex_encode`: the digits, if they and the terminator fit into `destsize`. -/
def hexEncode : List U8 → (destsize : ℕ) → Option (List Char)
  | [], destsize => if destsize < 1 then none else some []
  | c :: buf, destsize =>
    if destsize < 3 then none
    else (hexEncode buf (destsize - 2)).map fun dest => hexByte c ++ dest

/-- `hex_str_size` -/
def hexStrSize (bytes : ℕ) : ℕ := 2 * bytes + 1

/-- `hex_data_size` -/
def hexDataSize (strlen : ℕ) : ℕ := strlen / 2

/-- `stream << std::hex << std::setw(width) << std::setfill('0') << n` -/
def putHex (width n : ℕ) : List Char := (Nat.toDigits 16 n).leftpad width '0'

/-- `stream << txid`: "Output backwards..." -/
def putTxid (txid : BitcoinTxid) : List Char :=
  (List.finRange 32).flatMap fun i : Fin 32 =>
    putHex 2 (txid.1.get ⟨32 - 1 - i, by rw [txid.2]; omega⟩).toNat

def swapBytes (arr : List U8) (i j : ℕ) : List U8 :=
  (arr.set i (arr.getD j 0)).set j (arr.getD i 0)

/-- `reverse_bytes` -/
def reverseBytes (arr : List U8) : List U8 :=
  (List.range (arr.length / 2)).foldl (fun a i => swapBytes a i (arr.length - 1 - i)) arr

theorem swapBytes_length (arr : List U8) (i j : ℕ) : (swapBytes arr i j).length = arr.length := by
  rw [swapBytes, List.length_set, List.length_set]

theorem foldl_swapBytes_length (len : ℕ) (is : List ℕ) (arr : List U8) :
    (is.foldl (fun a i => swapBytes a i (len - 1 - i)) arr).length = arr.length := by
  induction is generalizing arr with
  | nil => rfl
  | cons i is ih => rw [List.foldl_cons, ih, swapBytes_length]

/-- The constructor `bitcoin_txid(const char *hexstr, size_t hexstr_len)`. -/
def BitcoinTxid.ofHex (hexstr : List Char) : Run BitcoinTxid :=
  match hexDecode hexstr 32 with
  | none => .error (.runtimeError "bad hex")
  | some p => .ok ⟨reverseBytes p.1, by rw [reverseBytes, foldl_swapBytes_length, p.2]⟩

/-- `s >> txid`, or `none` when the stream has failed. The terminator that `get` writes after a
short line is no digit, so that nothing behind it is looked at. -/
def readTxid (s : IStream) : Run (Option BitcoinTxid × IStream) :=
  let (hexstr, s) := s.getBuf 65
  if s.fail then .ok (none, s)
  else do
    let txid ← BitcoinTxid.ofHex (hexstr ++ List.replicate (64 - hexstr.length) '\x00')
    return (some txid, s)

/-! ## Decoding what was encoded -/

/-- The digits of all bytes. -/
def hexText (buf : List U8) : List Char := buf.flatMap hexByte

theorem length_hexText (buf : List U8) : (hexText buf).length = 2 * buf.length := by
  induction buf with
  | nil => rfl
  | cons c buf ih =>
    rw [hexText, List.flatMap_cons, List.length_append, ← hexText, ih, List.length_cons]
    show 2 + _ = _
    ring

theorem hexEncode_eq {buf : List U8} {destsize : ℕ} (h : hexStrSize buf.length ≤ destsize) :
    hexEncode buf destsize = some (hexText buf) := by
  unfold hexStrSize at h
  induction buf generalizing destsize with
  | nil => rw [hexEncode, if_neg (by simp at h; omega)]; rfl
  | cons c buf ih =>
    rw [List.length_cons] at h
    rw [hexEncode, if_neg (by omega), ih (by omega)]
    rfl

theorem charToHex_hexchar (v : BitVec 4) : charToHex (hexchar v) = some (v.setWidth 8) := by
  revert v
  decide

theorem byte_halves (c : U8) :
    (c.extractLsb' 4 4).setWidth 8 <<< 4 ||| (c.extractLsb' 0 4).setWidth 8 = c := by
  revert c
  decide +kernel

theorem hexDecode_hexText {buf : List U8} {n : ℕ} (h : buf.length = n) :
    hexDecode (hexText buf) n = some ⟨buf, h⟩ := by
  subst h
  induction buf with
  | nil => rfl
  | cons c buf ih =>
    show hexDecode (hexchar _ :: hexchar _ :: hexText buf) (buf.length + 1) = _
    rw [hexDecode, charToHex_hexchar, charToHex_hexchar]
    simp [ih, byte_halves]

/-- A text that is decoded has digits only, so it is on one line. -/
theorem newline_not_mem_of_hexDecode {str : List Char} {n : ℕ} {data : Bytes n}
    (h : hexDecode str n = some data) : '\n' ∉ str := by
  have hdigit : ∀ {c v}, charToHex c = some v → '\n' ≠ c := by
    rintro c v hc rfl
    exact absurd hc (by simp [charToHex])
  induction n generalizing str with
  | zero =>
    match str with
    | [] => exact List.not_mem_nil
    | [c] => simp [hexDecode] at h
    | c₁ :: c₂ :: str => simp [hexDecode] at h
  | succ n ih =>
    match str with
    | [] => exact List.not_mem_nil
    | [c] => simp [hexDecode] at h
    | c₁ :: c₂ :: str =>
      simp only [hexDecode, Option.bind_eq_bind, Option.bind_eq_some_iff] at h
      obtain ⟨v₁, h₁, v₂, h₂, p, hp, -⟩ := h
      simp only [List.mem_cons, not_or]
      exact ⟨hdigit h₁, hdigit h₂, ih hp⟩

/-! ## Txids -/

theorem putHex_byte (c : U8) : putHex 2 c.toNat = hexByte c := by
  revert c
  decide +kernel

theorem getD_swapBytes {arr : List U8} {i j : ℕ} (hi : i < arr.length) (hj : j < arr.length)
    (k : ℕ) : (swapBytes arr i j).getD k 0 =
      if k = j then arr.getD i 0 else if k = i then arr.getD j 0 else arr.getD k 0 := by
  simp only [swapBytes, List.getD_eq_getElem?_getD, List.getElem?_set, List.length_set]
  by_cases hkj : k = j
  · simp [hkj, hj]
  · by_cases hki : k = i
    · subst hki
      simp [hi, hkj, Ne.symm hkj]
    · simp [Ne.symm hkj, Ne.symm hki, hkj, hki]

/-- After `n` swaps, the first and the last `n` bytes are where they belong. -/
theorem getD_foldl_swapBytes (arr : List U8) {n : ℕ} (hn : n ≤ arr.length / 2) {k : ℕ}
    (hk : k < arr.length) :
    ((List.range n).foldl (fun a i => swapBytes a i (arr.length - 1 - i)) arr).getD k 0 =
      if k < n ∨ arr.length - n ≤ k then arr.getD (arr.length - 1 - k) 0 else arr.getD k 0 := by
  induction n generalizing k with
  | zero => rw [List.range_zero, List.foldl_nil, if_neg (by omega)]
  | succ n ih =>
    have hlen := foldl_swapBytes_length arr.length (List.range n) arr
    rw [List.range_succ, List.foldl_append, List.foldl_cons, List.foldl_nil,
      getD_swapBytes (by omega) (by omega), ih (by omega) (by omega), ih (by omega) (by omega),
      ih (by omega) hk]
    by_cases hkj : k = arr.length - 1 - n
    · rw [if_pos hkj, if_neg (by omega), if_pos (by omega), hkj]
      congr 1
      omega
    · rw [if_neg hkj]
      by_cases hkn : k = n
      · rw [if_pos hkn, if_neg (by omega), if_pos (by omega), hkn]
      · rw [if_neg hkn]
        by_cases hdone : k < n ∨ arr.length - n ≤ k
        · rw [if_pos hdone, if_pos (by omega)]
        · rw [if_neg hdone, if_neg (by omega)]

theorem reverseBytes_eq (arr : List U8) : reverseBytes arr = arr.reverse := by
  have hlen : (reverseBytes arr).length = arr.length := foldl_swapBytes_length _ _ _
  refine List.ext_getElem (by rw [hlen, List.length_reverse]) fun k hk hk' => ?_
  rw [hlen] at hk
  have h := getD_foldl_swapBytes arr le_rfl hk
  rw [List.getElem_reverse, ← List.getD_eq_getElem _ 0, ← List.getD_eq_getElem _ 0]
  refine h.trans ?_
  split_ifs with hdone
  · rfl
  · congr 1
    omega

/-- A txid is printed as the digits of its bytes, the last one first. -/
theorem putTxid_eq (txid : BitcoinTxid) : putTxid txid = hexText txid.1.reverse := by
  have hlist : txid.1.reverse =
      (List.finRange 32).map fun i : Fin 32 => txid.1.get ⟨32 - 1 - i, by rw [txid.2]; omega⟩ := by
    refine List.ext_getElem (by simp [txid.2]) fun k hk hk' => ?_
    simp [List.getElem_reverse, txid.2]
  rw [hlist, hexText, List.flatMap_map, putTxid]
  simp only [putHex_byte]

theorem ofHex_putTxid (txid : BitcoinTxid) : BitcoinTxid.ofHex (putTxid txid) = .ok txid := by
  have hlen : txid.1.reverse.length = 32 := by rw [List.length_reverse, txid.2]
  rw [putTxid_eq, BitcoinTxid.ofHex, hexDecode_hexText hlen]
  refine congrArg Except.ok (Subtype.ext ?_)
  show reverseBytes txid.1.reverse = txid.1
  rw [reverseBytes_eq, List.reverse_reverse]

theorem newline_not_mem_hexText (buf : List U8) : '\n' ∉ hexText buf := by
  have hdigit : ∀ v : BitVec 4, '\n' ≠ hexchar v := by decide
  simp [hexText, hexByte, hdigit]

/-- A txid is read back from its digits. -/
theorem readTxid_append (txid : BitcoinTxid) (rest : List Char) :
    readTxid (.ofText (putTxid txid ++ rest)) = .ok (some txid, .ofText rest) := by
  have hlen : (putTxid txid).length = 64 := by
    rw [putTxid_eq, length_hexText, List.length_reverse, txid.2]
  have hnl : '\n' ∉ putTxid txid := by
    rw [putTxid_eq]
    exact newline_not_mem_hexText _
  have hne : putTxid txid ≠ [] := List.ne_nil_of_length_pos (by rw [hlen]; decide)
  have hget := IStream.getBuf_append hnl hne rest
  rw [hlen] at hget
  simp only [readTxid, hget, hlen, Nat.sub_self, List.replicate_zero, List.append_nil,
    ofHex_putTxid]
  rfl

theorem readTxid_rest_le {s : IStream} {r : Option BitcoinTxid × IStream}
    (h : readTxid s = .ok r) : r.2.rest.length ≤ s.rest.length := by
  have hle := s.getBuf_rest_le 65
  unfold readTxid at h
  dsimp only at h
  split_ifs at h
  · cases h
    exact hle
  · obtain ⟨txid, -, h⟩ := of_bind_ok h
    cases h
    exact hle

end BitcoinIblt
