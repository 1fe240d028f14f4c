import BitcoinIblt.BitsetHeader

/-!
# The round trip of a set of bit strings

A byte array is read as the sequence of its bits, lowest bit first (`bitAt`). `add_bitset` writes
all strings into it one after the other (`BitsetEncoding`), and a `BitCursor` that is `At q k`
reads bit `k` of `q` next. Every bit that is read advances `k`, so a decoder that has not run short
has as many bits behind it as it has read.
-/

namespace BitcoinIblt

open StickyParser

/-! ## The set -/

namespace TxbitsSet

/-- The strings of length `i`, in iteration order. -/
def strings (bset : TxbitsSet) (i : ℕ) : List (List Bool) :=
  if h : i < 49 then bset[i].toList else []

/-- Entry 0 is empty and entry `i` has only strings of length `i`. -/
def WellFormed (bset : TxbitsSet) : Prop :=
  bset.strings 0 = [] ∧ ∀ i, ∀ v ∈ bset.strings i, v.length = i

/-- The same strings of every length. -/
def Same (bset bset' : TxbitsSet) : Prop :=
  ∀ i (_ : i < 49) (v : List Bool), v ∈ bset[i] ↔ v ∈ bset'[i]

/-- The strings of the lengths in `is`, one after the other. -/
def bits (bset : TxbitsSet) (is : List ℕ) : List Bool :=
  is.flatMap fun i => (bset.strings i).flatten

theorem strings_of_lt (bset : TxbitsSet) {i : ℕ} (h : i < 49) : bset.strings i = bset[i].toList :=
  dif_pos h

theorem strings_empty (i : ℕ) : empty.strings i = [] := by
  unfold strings
  split_ifs
  · simp [empty, UnorderedSet.empty]
  · rfl

theorem strings_set (bset : TxbitsSet) {i : ℕ} (hi : i < 49) (s : UnorderedSet (List Bool))
    (j : ℕ) : strings (bset.set i s) j = if j = i then s.toList else bset.strings j := by
  by_cases hj : j < 49
  · rw [strings_of_lt _ hj, strings_of_lt _ hj, Vector.getElem_set]
    simp only [eq_comm]
    split_ifs <;> rfl
  · have hne : j ≠ i := fun e => hj (e ▸ hi)
    rw [if_neg hne, strings, strings, dif_neg hj, dif_neg hj]

end TxbitsSet

theorem length_flatten_of_length {l : List (List Bool)} {i : ℕ} (h : ∀ v ∈ l, v.length = i) :
    l.flatten.length = i * l.length := by
  induction l with
  | nil => simp
  | cons v l ih =>
    rw [List.flatten_cons, List.length_append, ih fun w hw => h w (List.mem_cons_of_mem v hw),
      h v List.mem_cons_self, List.length_cons]
    ring

/-! ## Bits of a byte array -/

/-- Bit `k`, with the lowest bit of each byte first. -/
def bitAt (bytes : List U8) (k : ℕ) : Bool := (bytes.getD (k / 8) 0).getLsbD (k % 8)

theorem bitAt_replicate (n k : ℕ) : bitAt (List.replicate n 0) k = false := by
  unfold bitAt
  rw [List.getD_eq_getElem?_getD, List.getElem?_replicate]
  split_ifs <;> simp

theorem setBit_ok (bits : List U8) {bitoff : ℕ} (h : bitoff / 8 < bits.length) :
    ∃ bits', setBit bits bitoff = .ok bits' ∧ bits'.length = bits.length ∧
      ∀ k, bitAt bits' k = (bitAt bits k || decide (k = bitoff)) := by
  refine ⟨bits.set (bitoff / 8) (bits[bitoff / 8] ||| 1 <<< (bitoff % 8)), ?_, by simp,
    fun k => ?_⟩
  · rw [setBit, List.getElem?_eq_getElem h]
  · unfold bitAt
    by_cases hk : k / 8 = bitoff / 8
    · have hbit : (1 <<< (bitoff % 8) : U8).getLsbD (k % 8) = decide (k = bitoff) := by
        have h₁ : bitoff % 8 < 8 := Nat.mod_lt _ (by decide)
        have h₂ : k % 8 < 8 := Nat.mod_lt _ (by decide)
        have h₃ : k = bitoff ↔ k % 8 = bitoff % 8 := by omega
        simp only [h₃]
        generalize bitoff % 8 = a at h₁
        generalize k % 8 = b at h₂
        interval_cases a <;> interval_cases b <;> rfl
      rw [hk, List.getD_eq_getElem _ _ (by rw [List.length_set]; exact h), List.getElem_set_self,
        BitVec.getLsbD_or, hbit, List.getD_eq_getElem _ _ h]
    · rw [List.getD_eq_getElem?_getD, List.getElem?_set_ne (Ne.symm hk),
        ← List.getD_eq_getElem?_getD]
      have hne : k ≠ bitoff := fun e => hk (by rw [e])
      simp [hne]

/-! ## Packing -/

theorem packBits_ok (l : List Bool) (bits : List U8) (bitoff : ℕ)
    (h : bitoff + l.length ≤ 8 * bits.length) :
    ∃ bits', l.foldlM packBit (bits, bitoff) = .ok (bits', bitoff + l.length) ∧
      bits'.length = bits.length ∧
      ∀ k, bitAt bits' k =
        (bitAt bits k || (decide (bitoff ≤ k) && l.getD (k - bitoff) false)) := by
  induction l generalizing bits bitoff with
  | nil => exact ⟨bits, rfl, rfl, fun k => by simp⟩
  | cons b l ih =>
    rw [List.length_cons] at h
    have hstep : ∃ bits₁, packBit (bits, bitoff) b = .ok (bits₁, bitoff + 1) ∧
        bits₁.length = bits.length ∧
        ∀ k, bitAt bits₁ k = (bitAt bits k || (b && decide (k = bitoff))) := by
      cases b with
      | false => exact ⟨bits, rfl, rfl, fun k => by simp⟩
      | true =>
        obtain ⟨bits₁, h₁, hlen, hbit⟩ := setBit_ok bits (show bitoff / 8 < bits.length by omega)
        exact ⟨bits₁, by simp only [packBit, if_true, h₁, ok_bind]; rfl, hlen,
          fun k => by rw [hbit, Bool.true_and]⟩
    obtain ⟨bits₁, h₁, hlen₁, hbit₁⟩ := hstep
    obtain ⟨bits₂, h₂, hlen₂, hbit₂⟩ := ih bits₁ (bitoff + 1) (by omega)
    refine ⟨bits₂, ?_, by omega, fun k => ?_⟩
    · rw [List.foldlM_cons, h₁, ok_bind, h₂, List.length_cons]
      congr 2
      omega
    · rw [hbit₂, hbit₁, Bool.or_assoc]
      congr 1
      rcases Nat.lt_trichotomy k bitoff with hk | hk | hk
      · simp [show ¬ bitoff + 1 ≤ k by omega, show ¬ bitoff ≤ k by omega,
          show k ≠ bitoff by omega]
      · subst hk
        simp
      · rw [show k - bitoff = (k - (bitoff + 1)) + 1 by omega, List.getD_cons_succ]
        simp [show bitoff + 1 ≤ k by omega, show bitoff ≤ k by omega, show k ≠ bitoff by omega]

theorem packStrings_eq (state : List U8 × ℕ) (s : UnorderedSet (List Bool)) :
    packStrings state s = s.toList.flatten.foldlM packBit state := by
  unfold packStrings
  induction s.toList generalizing state with
  | nil => rfl
  | cons v l ih =>
    rw [List.foldlM_cons, List.flatten_cons, List.foldlM_append]
    congr 1
    funext state
    exact ih state

/-- The loop over the lengths packs the strings of all of them. -/
theorem packLengths_eq (bset : TxbitsSet) {is : List ℕ} (h : ∀ i ∈ is, i < 49)
    (state : List U8 × ℕ) :
    is.foldlM (fun state i => do
      let s ← bset.entry i
      packStrings state s) state = (bset.bits is).foldlM packBit state := by
  induction is generalizing state with
  | nil => rfl
  | cons i is ih =>
    have hi := h i List.mem_cons_self
    rw [List.foldlM_cons, TxbitsSet.entry_ok hi, ok_bind, packStrings_eq, TxbitsSet.bits,
      List.flatMap_cons, List.foldlM_append, TxbitsSet.strings_of_lt _ hi]
    congr 1
    funext state
    exact ih (fun j hj => h j (List.mem_cons_of_mem i hj)) state

/-! ## What `add_bitset` writes -/

/-- A smallest length, a number of lengths that cover the lengths in use, and the packed bits. -/
structure BitsetEncoding (bset : TxbitsSet) where
  min : ℕ
  num : ℕ
  bits : List U8
  le : min + num ≤ 49
  covers : ∀ i, bset.strings i ≠ [] → i ∈ List.range' min num
  length_bits : bits.length = ((bset.bits (List.range' min num)).length + 7) / 8
  bitAt_bits : ∀ k, bitAt bits k = (bset.bits (List.range' min num)).getD k false

/-- The number of strings of length `i`, as a varint holds it. -/
def TxbitsSet.count (bset : TxbitsSet) (i : ℕ) : U64 := BitVec.ofNat 64 (bset.strings i).length

def BitsetEncoding.bytes {bset : TxbitsSet} (e : BitsetEncoding bset) : List U8 :=
  varintBytes (BitVec.ofNat 64 e.min) ++ (varintBytes (BitVec.ofNat 64 e.num) ++
    ((List.range' e.min e.num).flatMap (fun i => varintBytes (bset.count i)) ++ e.bits))

/-- The largest length, if there is one, is in use. -/
def BitsetEncoding.Tight {bset : TxbitsSet} (e : BitsetEncoding bset) : Prop :=
  e.min + e.num = 0 ∨ ∃ i, bset.strings i ≠ [] ∧ e.min + e.num = i + 1

/-- One turn of the scan for the lengths. -/
def scanLength (bset : TxbitsSet) (bounds : ℕ × ℕ) (i : Fin 49) : ℕ × ℕ :=
  if (bset.get i).size = 0 then bounds
  else (if i.val < bounds.1 then i.val else bounds.1, if bounds.2 < i.val then i.val else bounds.2)

theorem scanLengths_eq (bset : TxbitsSet) :
    scanLengths bset = (List.finRange 49).tail.foldl (scanLength bset) (48, 0) := rfl

/-- Bounds for the lengths in `l` that are in use. -/
structure ScanBounds (bset : TxbitsSet) (l : List (Fin 49)) (bounds : ℕ × ℕ) : Prop where
  pos : 0 < bounds.1
  le : bounds.2 ≤ 48
  attained : bounds.2 = 0 ∨ bset.strings bounds.2 ≠ []
  covers : ∀ i ∈ l, bset.strings i.val ≠ [] → bounds.1 ≤ i.val ∧ i.val ≤ bounds.2

theorem size_eq_zero_iff (bset : TxbitsSet) (i : Fin 49) :
    (bset.get i).size = 0 ↔ bset.strings i.val = [] := by
  rw [bset.strings_of_lt i.isLt]
  exact List.length_eq_zero_iff

/-- A turn keeps the bounds, and takes its own length in. -/
theorem ScanBounds.step {bset : TxbitsSet} {l : List (Fin 49)} {bounds : ℕ × ℕ}
    (h : ScanBounds bset l bounds) {i : Fin 49} (hi : 0 < i.val) :
    ScanBounds bset (l ++ [i]) (scanLength bset bounds i) := by
  obtain ⟨hpos, hle, hattained, hcovers⟩ := h
  have hi₄₉ := i.isLt
  unfold scanLength
  by_cases hsize : (bset.get i).size = 0
  · rw [if_pos hsize]
    refine ⟨hpos, hle, hattained, ?_⟩
    intro j hj hne
    rcases List.mem_append.mp hj with hj | hj
    · exact hcovers j hj hne
    · rw [List.mem_singleton.mp hj] at hne
      exact absurd ((size_eq_zero_iff bset i).mp hsize) hne
  · rw [if_neg hsize]
    have hused : bset.strings i.val ≠ [] := fun hnil => hsize ((size_eq_zero_iff bset i).mpr hnil)
    refine ⟨?_, ?_, ?_, ?_⟩
    · show 0 < if i.val < bounds.1 then i.val else bounds.1
      split_ifs <;> assumption
    · show (if bounds.2 < i.val then i.val else bounds.2) ≤ 48
      split_ifs <;> omega
    · simp only
      split_ifs
      · exact Or.inr hused
      · exact hattained
    · intro j hj hne
      simp only
      rcases List.mem_append.mp hj with hj | hj
      · have := hcovers j hj hne
        split_ifs <;> omega
      · rw [List.mem_singleton.mp hj]
        split_ifs <;> omega

theorem scanBounds (bset : TxbitsSet) {l : List (Fin 49)} (hl : ∀ i ∈ l, 0 < i.val) :
    ScanBounds bset l (l.foldl (scanLength bset) (48, 0)) := by
  induction l using List.reverseRecOn with
  | nil =>
    refine ⟨Nat.succ_pos 47, Nat.zero_le 48, Or.inl rfl, ?_⟩
    intro i hi
    exact absurd hi List.not_mem_nil
  | append_singleton l i ih =>
    rw [List.foldl_append]
    have hl' : ∀ j ∈ l, 0 < j.val := fun j hj => hl j (List.mem_append_left [i] hj)
    exact (ih hl').step (hl i (List.mem_append_right l List.mem_cons_self))

/-- The scan finds bounds for the lengths in use, and the upper one is one of them. -/
theorem scanLengths_spec (bset : TxbitsSet) : 0 < (scanLengths bset).1 ∧
    (scanLengths bset).2 ≤ 48 ∧
    ((scanLengths bset).2 = 0 ∨ bset.strings (scanLengths bset).2 ≠ []) ∧
    ∀ i, 0 < i → bset.strings i ≠ [] →
      (scanLengths bset).1 ≤ i ∧ i ≤ (scanLengths bset).2 := by
  have htail : ∀ i : Fin 49, i ∈ (List.finRange 49).tail ↔ 0 < i.val := by decide
  obtain ⟨hpos, hle, hattained, hcovers⟩ := scanBounds bset fun i => (htail i).mp
  rw [← scanLengths_eq] at hpos hle hattained hcovers
  refine ⟨hpos, hle, hattained, ?_⟩
  intro i hi hne
  have hlt : i < 49 := by
    by_contra hge
    exact hne (dif_neg hge)
  exact hcovers ⟨i, hlt⟩ ((htail ⟨i, hlt⟩).mpr hi) hne

/-- The loop over the lengths writes the counts and adds up the bits. -/
theorem addCounts_ok {bset : TxbitsSet} (hbset : bset.WellFormed) {is : List ℕ}
    (h : ∀ i ∈ is, i < 49) (arr : List U8) (numBits : ℕ) :
    is.foldlM (fun (arr, numBits) i => do
      let s ← bset.entry i
      return (arr ++ varintBytes (BitVec.ofNat 64 s.size), numBits + i * s.size)) (arr, numBits) =
      (Except.ok (arr ++ is.flatMap (fun i => varintBytes (bset.count i)),
        numBits + (bset.bits is).length) : Run (List U8 × ℕ)) := by
  induction is generalizing arr numBits with
  | nil => simp [TxbitsSet.bits]; rfl
  | cons i is ih =>
    have hi := h i List.mem_cons_self
    have hlen := length_flatten_of_length (hbset.2 i)
    rw [List.foldlM_cons]
    simp only [TxbitsSet.entry_ok hi, ok_bind]
    show List.foldlM _ (_, _) is = _
    rw [ih fun j hj => h j (List.mem_cons_of_mem i hj)]
    congr 2
    · rw [List.flatMap_cons, List.append_assoc, TxbitsSet.count, bset.strings_of_lt hi]
      rfl
    · rw [TxbitsSet.bits, TxbitsSet.bits, List.flatMap_cons, List.length_append, hlen,
        bset.strings_of_lt hi, Nat.add_assoc]
      rfl

theorem addBitset_ok {bset : TxbitsSet} (hbset : bset.WellFormed) :
    ∃ e : BitsetEncoding bset, e.Tight ∧ ∀ arr, addBitset arr bset = .ok (arr ++ e.bytes) := by
  obtain ⟨hmin, hmax, htight, hcovers⟩ := scanLengths_spec bset
  obtain ⟨⟨min, max⟩, hscan⟩ : ∃ r, scanLengths bset = r := ⟨_, rfl⟩
  rw [hscan] at hmin hmax htight hcovers
  simp only at hmin hmax htight hcovers
  have hpos : ∀ i, bset.strings i ≠ [] → 0 < i := fun i hne =>
    Nat.pos_of_ne_zero fun e => hne (by rw [e, hbset.1])
  by_cases hlt : max < min
  · refine ⟨⟨0, 0, [], by decide, fun i hne => ?_, by simp [TxbitsSet.bits],
      fun k => by simp [TxbitsSet.bits, bitAt]⟩, Or.inl rfl, fun arr => ?_⟩
    · have := hcovers i (hpos i hne) hne
      omega
    · rw [addBitset, hscan]
      simp only [if_pos hlt]
      simp [BitsetEncoding.bytes]
      rfl
  · have hrange : ∀ i ∈ List.range' min (max - min + 1), i < 49 := fun i hi => by
      rw [List.mem_range'_1] at hi
      omega
    -- the packed bits fill the vector up to the last byte
    obtain ⟨bits, hbits, hlen, hbitAt⟩ := packBits_ok
      (bset.bits (List.range' min (max - min + 1)))
      (List.replicate (((bset.bits (List.range' min (max - min + 1))).length + 7) / 8) 0) 0
      (by rw [List.length_replicate]; omega)
    rw [List.length_replicate] at hlen
    refine ⟨⟨min, max - min + 1, bits, by omega, fun i hne => ?_, hlen, fun k => ?_⟩,
      Or.inr ⟨max, htight.resolve_left (by omega), ?_⟩, fun arr => ?_⟩
    · have := hcovers i (hpos i hne) hne
      rw [List.mem_range'_1]
      omega
    · rw [hbitAt, bitAt_replicate]
      simp
    · show min + (max - min + 1) = max + 1
      omega
    · rw [addBitset, hscan]
      simp only [if_neg hlt]
      rw [addCounts_ok hbset hrange, ok_bind]
      simp only [Nat.zero_add]
      rw [packLengths_eq bset hrange, hbits, ok_bind]
      simp only [Nat.zero_add, if_true]
      simp [BitsetEncoding.bytes]
      rfl

/-! ## Reading bits -/

/-- The cursor is about to read bit `k` of `q`, or past the end of `q` if it has no bit `k`. -/
structure At (q : List U8) (k : ℕ) (c : BitCursor) : Prop where
  le : k / 8 ≤ q.length
  cursor : c.cursor = some (q.drop (k / 8))
  bitoff : c.bitoff.val = k % 8

/-- The bits of `q` from `k` on start with `v`. -/
def BitsAt (q : List U8) (k : ℕ) (v : List Bool) : Prop :=
  k + v.length ≤ 8 * q.length ∧ ∀ j (h : j < v.length), bitAt q (k + j) = v[j]

theorem BitsAt.append {q : List U8} {k : ℕ} {v w : List Bool} (h : BitsAt q k (v ++ w)) :
    BitsAt q k v ∧ BitsAt q (k + v.length) w := by
  obtain ⟨hle, hbit⟩ := h
  rw [List.length_append] at hle
  refine ⟨⟨by omega, fun j hj => ?_⟩, ⟨by omega, fun j hj => ?_⟩⟩
  · rw [hbit j (by rw [List.length_append]; omega), List.getElem_append_left hj]
  · rw [Nat.add_assoc, hbit (v.length + j) (by rw [List.length_append]; omega),
      List.getElem_append_right (by omega)]
    simp

section PullBits

variable {q : List U8} {k : ℕ} {c : BitCursor} (past : U8)

/-- One bit on: at the next bit, unless that was the last bit past the end. -/
theorem At.next (h : At q k c) :
    ((k + 1) / 8 ≤ q.length → At q (k + 1) (pullBit past c).2) ∧
      (q.length < (k + 1) / 8 → (pullBit past c).2.cursor = none) := by
  obtain ⟨cursor, bitoff, overread, aligned⟩ := c
  obtain ⟨hle, rfl, hoff⟩ := h
  simp only at hoff
  unfold pullBit
  by_cases h₇ : bitoff = 7
  · have hk : k % 8 = 7 := by rw [← hoff, h₇]; rfl
    simp only [if_pos h₇]
    constructor
    · intro hlt
      have hne : q.drop (k / 8) ≠ [] := by
        rw [ne_eq, List.drop_eq_nil_iff]
        omega
      refine ⟨hlt, ?_, by simp; omega⟩
      rw [show (k + 1) / 8 = k / 8 + 1 by omega, ← List.tail_drop]
      exact if_neg hne
    · intro hlt
      exact if_pos (List.drop_eq_nil_iff.mpr (by omega))
  · have hk : k % 8 ≠ 7 := fun e => h₇ (Fin.ext (hoff.trans e))
    have hdiv : (k + 1) / 8 = k / 8 := by omega
    simp only [if_neg h₇]
    refine ⟨fun _ => ⟨by omega, by rw [hdiv], ?_⟩, fun hlt => by omega⟩
    have hb := bitoff.isLt
    rw [Fin.val_add, Fin.val_one, Nat.mod_eq_of_lt (by omega), hoff]
    omega

/-- A bit inside the buffer is read off the buffer. -/
theorem At.bit (h : At q k c) (hk : k / 8 < q.length) : (pullBit past c).1 = bitAt q k := by
  obtain ⟨cursor, bitoff, overread, aligned⟩ := c
  obtain ⟨-, rfl, hoff⟩ := h
  simp only at hoff
  have hhead : (q.drop (k / 8)).headD past = q.getD (k / 8) 0 := by
    rw [List.drop_eq_getElem_cons hk, List.headD_cons, List.getD_eq_getElem _ _ hk]
  unfold pullBit bitAt
  simp only [hhead, hoff]
  split_ifs <;> rfl

theorem pullBit_none (h : c.cursor = none) : pullBit past c = (false, c) := by
  unfold pullBit
  rw [h]

theorem pullString_succ (n : ℕ) (c : BitCursor) : pullString past (n + 1) c =
    ((pullBit past c).1 :: (pullString past n (pullBit past c).2).1,
      (pullString past n (pullBit past c).2).2) := rfl

theorem pullString_none (n : ℕ) (h : c.cursor = none) : (pullString past n c).2 = c := by
  induction n with
  | zero => rfl
  | succ n ih => rw [pullString, pullBit_none past h, ih]

/-- A string inside the buffer is read as it is. -/
theorem At.string {v : List Bool} (h : At q k c) (hv : BitsAt q k v) :
    (pullString past v.length c).1 = v ∧
      At q (k + v.length) (pullString past v.length c).2 := by
  induction v generalizing k c with
  | nil => exact ⟨rfl, h⟩
  | cons b v ih =>
    obtain ⟨hb, hv'⟩ := BitsAt.append (v := [b]) hv
    have hk : k + 1 ≤ 8 * q.length := hb.1
    have hbit : (pullBit past c).1 = b :=
      (h.bit past (by omega)).trans (hb.2 0 (by simp))
    obtain ⟨h₁, h₂⟩ := ih ((h.next past).1 (by omega)) hv'
    rw [List.length_cons, pullString_succ]
    refine ⟨by rw [hbit, h₁], ?_⟩
    rwa [show k + (v.length + 1) = k + [b].length + v.length by simp; omega]

/-- Reading a string either gets as many bits further or runs short. -/
theorem At.skip (h : At q k c) (n : ℕ) :
    At q (k + n) (pullString past n c).2 ∨ (pullString past n c).2.cursor = none := by
  induction n generalizing k c with
  | zero => exact Or.inl h
  | succ n ih =>
    rw [pullString]
    by_cases hlt : (k + 1) / 8 ≤ q.length
    · have := ih ((h.next past).1 hlt)
      rwa [show k + (n + 1) = k + 1 + n by omega]
    · have hnone := (h.next past).2 (by omega)
      right
      rw [pullString_none past n hnone]
      exact hnone

end PullBits

/-! ## Reading the strings -/

theorem TxbitsSet.mem_set_insert {bset : TxbitsSet} {i : ℕ} (hi : i < 49) (w : List Bool) {j : ℕ}
    (hj : j < 49) {v : List Bool} :
    v ∈ (bset.set i (bset[i].insert w))[j] ↔ v ∈ bset[j] ∨ (j = i ∧ v = w) := by
  rw [Vector.getElem_set]
  split_ifs with h
  · subst h
    rw [UnorderedSet.mem_insert]
    simp [or_comm]
  · simp [Ne.symm h]

/-- The strings of one length are read into their set. -/
theorem pullStrings_ok (past : U8) {q : List U8} {i : ℕ} (hi : i < 49) {ss : List (List Bool)}
    (hss : ∀ v ∈ ss, v.length = i) {k : ℕ} {c : BitCursor} (h : At q k c)
    (hbits : BitsAt q k ss.flatten) (bset : TxbitsSet) :
    ∃ bset' c', pullStrings past i ss.length bset c = .ok (true, bset', c') ∧
      At q (k + ss.flatten.length) c' ∧
      ∀ j (_ : j < 49) (v : List Bool), v ∈ bset'[j] ↔ v ∈ bset[j] ∨ (j = i ∧ v ∈ ss) := by
  induction ss generalizing k c bset with
  | nil => exact ⟨bset, c, rfl, h, fun j hj v => by simp⟩
  | cons w ss ih =>
    rw [List.flatten_cons] at hbits
    obtain ⟨hw, hrest⟩ := hbits.append
    obtain ⟨h₁, h₂⟩ := h.string past hw
    rw [hss w List.mem_cons_self] at h₁ h₂
    have hnn : (pullString past i c).2.cursor ≠ none := by rw [h₂.cursor]; exact nofun
    rw [hss w List.mem_cons_self] at hrest
    obtain ⟨bset', c', hr, hat, hmem⟩ := ih (fun v hv => hss v (List.mem_cons_of_mem w hv)) h₂ hrest
      (bset.set i (bset[i].insert w))
    refine ⟨bset', c', ?_, ?_, fun j hj v => ?_⟩
    · rw [List.length_cons, pullStrings_succ past hi, if_neg hnn, h₁]
      exact hr
    · rwa [List.flatten_cons, List.length_append, hss w List.mem_cons_self, ← Nat.add_assoc]
    · rw [hmem, TxbitsSet.mem_set_insert hi w hj, List.mem_cons]
      tauto

/-- Reading strings gets past all their bits, or stops. -/
theorem pullStrings_step (past : U8) {q : List U8} {i : ℕ} (hi : i < 49) (n : ℕ) {k : ℕ}
    {c : BitCursor} (h : At q k c) (bset : TxbitsSet) :
    ∃ go bset' c', pullStrings past i n bset c = .ok (go, bset', c') ∧
      (go = true → At q (k + i * n) c') := by
  induction n generalizing k c bset with
  | zero => exact ⟨true, bset, c, rfl, fun _ => h⟩
  | succ n ih =>
    rw [pullStrings_succ past hi]
    split_ifs with hnone
    · exact ⟨_, _, _, rfl, fun h => by cases h⟩
    · obtain ⟨go, bset', c', hr, hat⟩ := ih ((h.skip past i).resolve_right hnone) _
      refine ⟨go, bset', c', hr, fun hgo => ?_⟩
      rw [Nat.mul_succ, Nat.add_comm (i * n), ← Nat.add_assoc]
      exact hat hgo

/-- There are not many strings of one length. -/
theorem TxbitsSet.WellFormed.toNat_count {bset : TxbitsSet} (h : bset.WellFormed) (i : ℕ) :
    (bset.count i).toNat = (bset.strings i).length := by
  have hle : (bset.strings i).length ≤ 2 ^ 48 := by
    by_cases hi : i < 49
    · let l : List (List.Vector Bool i) := (bset.strings i).attach.map fun v => ⟨v.1, h.2 i v.1 v.2⟩
      have hnodup : l.Nodup := by
        refine List.Nodup.map (fun v w hvw => ?_) ?_
        · exact Subtype.ext (congrArg (fun x : List.Vector Bool i => x.1) hvw)
        · rw [List.nodup_attach, bset.strings_of_lt hi]
          exact bset[i].nodup
      have hcard := hnodup.length_le_card
      have hlen : l.length = (bset.strings i).length :=
        (List.length_map _).trans List.length_attach
      rw [card_vector, Fintype.card_bool, hlen] at hcard
      exact hcard.trans (Nat.pow_le_pow_right (by decide) (by omega))
    · rw [strings, dif_neg hi]
      simp
  rw [count, BitVec.toNat_ofNat, Nat.mod_eq_of_lt (by omega)]

section Lengths

variable (past : U8) {q : List U8} {bset₀ : TxbitsSet} (hbset : bset₀.WellFormed) {nums : List U64}
  {is : List ℕ} (hnums : ∀ i ∈ is, i < 49 ∧ nums[i]? = some (bset₀.count i))

include hbset hnums

/-- The strings of all lengths are read into their sets. -/
theorem pullLengths_ok {k : ℕ} {c : BitCursor} (h : At q k c)
    (hbits : BitsAt q k (bset₀.bits is)) (bset : TxbitsSet) :
    ∃ bset' c', pullLengths past nums is bset c = .ok (true, bset', c') ∧
      At q (k + (bset₀.bits is).length) c' ∧
      ∀ j (_ : j < 49) (v : List Bool),
        v ∈ bset'[j] ↔ v ∈ bset[j] ∨ (j ∈ is ∧ v ∈ bset₀.strings j) := by
  induction is generalizing k c bset with
  | nil => exact ⟨bset, c, rfl, h, fun j hj v => by simp⟩
  | cons i is ih =>
    obtain ⟨hi, hget⟩ := hnums i List.mem_cons_self
    rw [TxbitsSet.bits, List.flatMap_cons] at hbits
    obtain ⟨hb₁, hb₂⟩ := hbits.append
    obtain ⟨bset₁, c₁, hr₁, hat₁, hmem₁⟩ := pullStrings_ok past hi (hbset.2 i) h hb₁ bset
    obtain ⟨bset₂, c₂, hr₂, hat₂, hmem₂⟩ :=
      ih (fun j hj => hnums j (List.mem_cons_of_mem i hj)) hat₁ hb₂ bset₁
    refine ⟨bset₂, c₂, ?_, ?_, fun j hj v => ?_⟩
    · rw [pullLengths, hget]
      simp only [hbset.toNat_count, hr₁, ok_bind, if_true]
      exact hr₂
    · rwa [TxbitsSet.bits, List.flatMap_cons, List.length_append, ← Nat.add_assoc]
    · rw [hmem₂ j hj, hmem₁ j hj, List.mem_cons]
      constructor
      · rintro ((hv | ⟨rfl, hv⟩) | ⟨hj', hv⟩)
        · exact Or.inl hv
        · exact Or.inr ⟨Or.inl rfl, hv⟩
        · exact Or.inr ⟨Or.inr hj', hv⟩
      · rintro (hv | ⟨rfl | hj', hv⟩)
        · exact Or.inl (Or.inl hv)
        · exact Or.inl (Or.inr ⟨rfl, hv⟩)
        · exact Or.inr ⟨hj', hv⟩

/-- Reading the strings gets past all their bits, or stops. -/
theorem pullLengths_step {k : ℕ} {c : BitCursor} (h : At q k c) (bset : TxbitsSet) :
    ∃ go bset' c', pullLengths past nums is bset c = .ok (go, bset', c') ∧
      (go = true → At q (k + (bset₀.bits is).length) c') := by
  induction is generalizing k c bset with
  | nil => exact ⟨true, bset, c, rfl, fun _ => h⟩
  | cons i is ih =>
    obtain ⟨hi, hget⟩ := hnums i List.mem_cons_self
    obtain ⟨go, bset₁, c₁, hr₁, hat₁⟩ :=
      pullStrings_step past hi (bset₀.strings i).length h bset
    rw [pullLengths, hget]
    simp only [hbset.toNat_count, hr₁, ok_bind]
    cases go with
    | false => exact ⟨false, bset₁, c₁, rfl, fun h => by cases h⟩
    | true =>
      obtain ⟨go, bset₂, c₂, hr₂, hat₂⟩ :=
        ih (fun j hj => hnums j (List.mem_cons_of_mem i hj)) (hat₁ rfl) bset₁
      refine ⟨go, bset₂, c₂, hr₂, fun hgo => ?_⟩
      rw [TxbitsSet.bits, List.flatMap_cons, List.length_append,
        length_flatten_of_length (hbset.2 i), ← Nat.add_assoc]
      exact hat₂ hgo

end Lengths

/-! ## The padding -/

/-- Zeros up to the end of the byte are skipped. -/
theorem skipPadding_ok (past : U8) {q : List U8} {k : ℕ} {c : BitCursor} (h : At q k c)
    (hle : (k + 7) / 8 ≤ q.length)
    (hzero : ∀ j, k ≤ j → j < 8 * ((k + 7) / 8) → bitAt q j = false) :
    ∃ c', skipPadding past c = (true, c') ∧ At q (8 * ((k + 7) / 8)) c' := by
  induction hn : 8 * ((k + 7) / 8) - k generalizing k c with
  | zero =>
    have hoff : c.bitoff = 0 := Fin.ext (by rw [h.bitoff]; simp; omega)
    exact ⟨c, skipPadding_aligned past hoff, by rwa [show 8 * ((k + 7) / 8) = k by omega]⟩
  | succ n ih =>
    have hoff : c.bitoff ≠ 0 := fun e => by
      have := h.bitoff
      rw [e] at this
      simp at this
      omega
    have hround : (k + 1 + 7) / 8 = (k + 7) / 8 := by omega
    have hbit := (h.bit past (by omega)).trans (hzero k le_rfl (by omega))
    rw [skipPadding, dif_neg hoff, if_neg (by rw [hbit]; decide)]
    have := ih ((h.next past).1 (by omega)) (by rwa [hround])
      (fun j hj hlt => hzero j (by omega) (by rwa [hround] at hlt)) (by omega)
    rwa [hround] at this

/-- If the last byte is missing, the padding does not end on a byte. -/
theorem skipPadding_short (past : U8) {q : List U8} {k : ℕ} {c : BitCursor} (h : At q k c)
    (hlt : q.length < (k + 7) / 8) :
    ((skipPadding past c).1 && (skipPadding past c).2.cursor.isSome) = false := by
  induction hn : 8 * ((k + 7) / 8) - k generalizing k c with
  | zero => have := h.le; omega
  | succ n ih =>
    have hoff : c.bitoff ≠ 0 := fun e => by
      have := h.bitoff
      rw [e] at this
      simp at this
      omega
    rw [skipPadding, dif_neg hoff]
    split_ifs with hb
    · rfl
    · by_cases hle : (k + 1) / 8 ≤ q.length
      · exact ih ((h.next past).1 hle) (by omega) (by omega)
      · have hnone := (h.next past).2 (by omega)
        rw [skipPadding_aligned past ((pullBit past c).2.aligned hnone)]
        simp [hnone]

/-! ## Reading the counts -/

/-- `nums` after the counts `f` of the lengths have been read. -/
def setNums (f : ℕ → U64) (is : List ℕ) (nums : List U64) : List U64 :=
  is.foldl (fun nums i => nums.set i (f i)) nums

theorem setNums_get {f : ℕ → U64} {is : List ℕ} {nums : List U64} {i : ℕ}
    (h : nums[i]? = some (f i) ∨ (i ∈ is ∧ i < nums.length)) :
    (setNums f is nums)[i]? = some (f i) := by
  induction is generalizing nums with
  | nil => exact h.resolve_right fun h => absurd h.1 List.not_mem_nil
  | cons j is ih =>
    refine ih ?_
    by_cases hj : j = i
    · subst hj
      have hlt : j < nums.length := by
        rcases h with h | h
        · exact (List.getElem?_eq_some_iff.mp h).1
        · exact h.2
      exact Or.inl (by rw [List.getElem?_set_self hlt])
    · rcases h with h | ⟨h, hlt⟩
      · exact Or.inl (by rw [List.getElem?_set_ne hj, h])
      · exact Or.inr ⟨(List.mem_cons.mp h).resolve_left (Ne.symm hj), by rwa [List.length_set]⟩

theorem TxbitsSet.empty_set (i : ℕ) (h : i < 49) :
    TxbitsSet.empty.set i UnorderedSet.empty = TxbitsSet.empty := by
  apply Vector.ext
  intro j hj
  rw [Vector.getElem_set]
  split_ifs <;> simp [TxbitsSet.empty]

section Counts

variable {A : Allocator} {f : ℕ → U64} {is : List ℕ}

theorem pullNums_ok {nums : List U64}
    (h : ∀ i ∈ is, i < 49 ∧ i < nums.length ∧ A (f i).toNat 8 = true) (rest : List U8) :
    pullNums A is nums TxbitsSet.empty (some (is.flatMap (fun i => varintBytes (f i)) ++ rest)) =
      .ok (setNums f is nums, TxbitsSet.empty, some rest) := by
  induction is generalizing nums with
  | nil => rfl
  | cons i is ih =>
    obtain ⟨h₁, h₂, h₃⟩ := h i List.mem_cons_self
    rw [List.flatMap_cons, List.append_assoc,
      pullNums_cons h₁ h₂ ((reads_varint (f i)).full _), TxbitsSet.empty_set i h₁,
      if_neg (by rw [h₃]; decide)]
    exact ih fun j hj => by
      rw [List.length_set]
      exact h j (List.mem_cons_of_mem i hj)

variable {nums : List U64} (hA : A 0 8 = true) (h : ∀ i ∈ is, i < 49 ∧ i < nums.length)

include hA h

theorem pullNums_none :
    ∃ nums', pullNums A is nums TxbitsSet.empty none = .ok (nums', TxbitsSet.empty, none) := by
  induction is generalizing nums with
  | nil => exact ⟨nums, rfl⟩
  | cons i is ih =>
    obtain ⟨h₁, h₂⟩ := h i List.mem_cons_self
    have hA₀ : A (0 : U64).toNat 8 = true := hA
    rw [pullNums_cons h₁ h₂ (show pullVarint none = .ok (0, none) from rfl),
      TxbitsSet.empty_set i h₁, if_neg (by rw [hA₀]; decide)]
    exact ih fun j hj => by
      rw [List.length_set]
      exact h j (List.mem_cons_of_mem i hj)

theorem pullNums_short (hf : ∀ i ∈ is, A (f i).toNat 8 = true) {pre : List U8}
    (hpre : pre <+: is.flatMap fun i => varintBytes (f i))
    (hne : pre ≠ is.flatMap fun i => varintBytes (f i)) :
    ∃ nums', pullNums A is nums TxbitsSet.empty (some pre) =
      .ok (nums', TxbitsSet.empty, none) := by
  induction is generalizing nums pre with
  | nil => exact absurd (List.prefix_nil.mp hpre) hne
  | cons i is ih =>
    obtain ⟨h₁, h₂⟩ := h i List.mem_cons_self
    have h' : ∀ (n : U64), ∀ j ∈ is, j < 49 ∧ j < (nums.set i n).length := fun n j hj => by
      rw [List.length_set]
      exact h j (List.mem_cons_of_mem i hj)
    rw [List.flatMap_cons] at hpre hne
    rcases proper_prefix_append hpre hne with ⟨hp, hpne⟩ | ⟨r, rfl, hr, hrne⟩
    · obtain ⟨v, hv⟩ := (reads_varint (f i)).short pre hp hpne
      have hA₀ : A (0 : U64).toNat 8 = true := hA
      rw [pullNums_cons h₁ h₂ hv, pullVarint_none_zero hv, TxbitsSet.empty_set i h₁,
        if_neg (by rw [hA₀]; decide)]
      exact pullNums_none hA (h' 0)
    · rw [pullNums_cons h₁ h₂ ((reads_varint (f i)).full _), TxbitsSet.empty_set i h₁,
        if_neg (by rw [hf i List.mem_cons_self]; decide)]
      exact ih (h' (f i)) (fun j hj => hf j (List.mem_cons_of_mem i hj)) hr hrne

end Counts

/-! ## The round trip -/

/-- The allocations that reading `bset` takes: at most 49 counts, and a set of each size. -/
def TxbitsSet.Fits (bset : TxbitsSet) (A : Allocator) : Prop :=
  (∀ n, n ≤ 49 → A n 8 = true) ∧ ∀ i, i < 49 → A (bset.strings i).length 8 = true

namespace BitsetEncoding

variable {bset : TxbitsSet} (e : BitsetEncoding bset) (hbset : bset.WellFormed)

/-- The bits of the buffer are those of the strings. -/
theorem bitsAt (rest : List U8) :
    BitsAt (e.bits ++ rest) 0 (bset.bits (List.range' e.min e.num)) := by
  have hlen := e.length_bits
  refine ⟨by rw [List.length_append]; omega, fun j hj => ?_⟩
  have hbit := e.bitAt_bits j
  rw [List.getD_eq_getElem _ _ hj] at hbit
  rw [← hbit, Nat.zero_add, bitAt, bitAt]
  congr 1
  rw [List.getD_append _ _ _ _ (by omega)]

theorem lengthRange_eq :
    lengthRange (BitVec.ofNat 64 e.min) (BitVec.ofNat 64 e.num) = List.range' e.min e.num ∧
      (BitVec.ofNat 64 e.min + BitVec.ofNat 64 e.num).toNat = e.min + e.num := by
  have hle := e.le
  have hsum : (BitVec.ofNat 64 e.min + BitVec.ofNat 64 e.num).toNat = e.min + e.num := by
    rw [BitVec.toNat_add, BitVec.toNat_ofNat, BitVec.toNat_ofNat]
    omega
  refine ⟨?_, hsum⟩
  rw [lengthRange, hsum, BitVec.toNat_ofNat, Nat.mod_eq_of_lt (by omega), Nat.add_sub_cancel_left]

theorem in_range {i : ℕ} (h : i ∈ List.range' e.min e.num) :
    i < 49 ∧ i < (List.replicate (e.min + e.num) (0 : U64)).length := by
  have hle := e.le
  rw [List.mem_range'_1] at h
  rw [List.length_replicate]
  omega

theorem nums_get {i : ℕ} (h : i ∈ List.range' e.min e.num) :
    i < 49 ∧ (setNums bset.count (List.range' e.min e.num)
      (List.replicate (e.min + e.num) 0))[i]? = some (bset.count i) :=
  ⟨(e.in_range h).1, setNums_get (Or.inr ⟨h, (e.in_range h).2⟩)⟩

/-- The allocations that reading the encoding takes. -/
structure Fits (A : Allocator) : Prop where
  nums : A (e.min + e.num) 8 = true
  sets : ∀ i ∈ List.range' e.min e.num, A (bset.strings i).length 8 = true

theorem fits_of_bset {A : Allocator} (hA : bset.Fits A) : e.Fits A :=
  ⟨hA.1 _ e.le, fun i hi => hA.2 i (e.in_range hi).1⟩

theorem count_fits {A : Allocator} (hbset : bset.WellFormed) (hA : e.Fits A) {i : ℕ}
    (h : i ∈ List.range' e.min e.num) :
    i < 49 ∧ i < (List.replicate (e.min + e.num) (0 : U64)).length ∧
      A (bset.count i).toNat 8 = true := by
  refine ⟨(e.in_range h).1, (e.in_range h).2, ?_⟩
  rw [hbset.toNat_count]
  exact hA.sets i h

section Append

variable {A : Allocator} (hA : e.Fits A) (past : U8) (bset₀ : TxbitsSet)

include hA

/-- What `decode_bitset` does once it has read the two numbers. -/
theorem decode_header (p : Cursor U8) :
    decodeBitset A past (some (varintBytes (BitVec.ofNat 64 e.min) ++
      (varintBytes (BitVec.ofNat 64 e.num) ++ p.getD []))) bset₀ = (do
      let (nums, bset, p) ← pullNums A (List.range' e.min e.num)
        (List.replicate (e.min + e.num) 0) TxbitsSet.empty (some (p.getD []))
      match p with
      | none => return ⟨false, bset, none, false⟩
      | some p => decodeStrings past nums (List.range' e.min e.num) bset p) := by
  have hle := e.le
  have hnum : ¬ 49 < (BitVec.ofNat 64 e.num).toNat := by
    rw [BitVec.toNat_ofNat]
    omega
  have hAsum := hA.nums
  have hd := decodeBitset_eq A past bset₀ ((reads_varint (BitVec.ofNat 64 e.min)).full _)
    ((reads_varint (BitVec.ofNat 64 e.num)).full (p.getD []))
  rw [if_neg hnum, e.lengthRange_eq.1, e.lengthRange_eq.2, if_neg (by rw [hAsum]; decide)] at hd
  exact hd

include hbset

/-- The whole encoding is read, whatever follows it. -/
theorem decode_append (rest : List U8) :
    ∃ r, decodeBitset A past (some (e.bytes ++ rest)) bset₀ = .ok r ∧ r.result = true ∧
      r.bset.Same bset ∧ r.cursor = some rest := by
  have hnums := pullNums_ok (fun i hi => e.count_fits hbset hA hi) (e.bits ++ rest)
  have hstart : At (e.bits ++ rest) 0 ⟨some (e.bits ++ rest), 0, false, fun _ => rfl⟩ :=
    ⟨Nat.zero_le _, rfl, rfl⟩
  obtain ⟨bset', c, hr, hat, hmem⟩ := pullLengths_ok past hbset
    (fun i hi => e.nums_get hi) hstart (e.bitsAt rest) TxbitsSet.empty
  have hlen := e.length_bits
  rw [Nat.zero_add] at hat
  obtain ⟨c', hr', hat'⟩ := skipPadding_ok past hat (by rw [List.length_append]; omega)
    (fun j hj hlt => by
      have hbit := e.bitAt_bits j
      rw [List.getD_eq_default _ _ hj] at hbit
      rw [← hbit, bitAt, bitAt]
      congr 1
      rw [List.getD_append _ _ _ _ (by omega)])
  have hcursor : c'.cursor = some rest := by
    rw [hat'.cursor, Nat.mul_div_cancel_left _ (by decide), ← hlen, List.drop_left]
  refine ⟨⟨true && c'.cursor.isSome, bset', c'.cursor, c'.overread⟩, ?_, ?_, fun i hi v => ?_,
    hcursor⟩
  · have hd := e.decode_header hA past bset₀
      (some ((List.range' e.min e.num).flatMap (fun i => varintBytes (bset.count i)) ++
        (e.bits ++ rest)))
    simp only [Option.getD_some, hnums, ok_bind, decodeStrings, hr, if_true, hr'] at hd
    simp only [bytes, List.append_assoc]
    exact hd
  · simp [hcursor]
  · rw [hmem i hi, bset.strings_of_lt hi, ← UnorderedSet.mem_def]
    constructor
    · rintro (hv | ⟨-, hv⟩)
      · simp [TxbitsSet.empty] at hv
      · exact hv
    · intro hv
      refine Or.inr ⟨e.covers i fun hnil => ?_, hv⟩
      rw [bset.strings_of_lt hi] at hnil
      rw [UnorderedSet.mem_def, hnil] at hv
      exact List.not_mem_nil hv

end Append

variable {A : Allocator} (hA : bset.Fits A) (past : U8) (bset₀ : TxbitsSet)

include hA

/-- The input ends within the smallest length. -/
theorem decode_short_min {pre : List U8} (hpre : pre <+: varintBytes (BitVec.ofNat 64 e.min))
    (hne : pre ≠ varintBytes (BitVec.ofNat 64 e.min)) :
    ∃ r, decodeBitset A past (some pre) bset₀ = .ok r ∧ r.result = false := by
  obtain ⟨v, hv⟩ := (reads_varint _).short pre hpre hne
  refine ⟨⟨false, TxbitsSet.empty, none, false⟩, ?_, rfl⟩
  have hAv : A (0 + 0 : U64).toNat 8 = true := hA.1 0 (by decide)
  have hnum : pullVarint none = .ok (0, none) := rfl
  obtain rfl := pullVarint_none_zero hv
  rw [decodeBitset_eq A past bset₀ hv hnum, if_neg (by decide), if_neg (by rw [hAv]; decide)]
  rfl

/-- The input ends within the number of lengths. -/
theorem decode_short_num {pre : List U8} (hpre : pre <+: varintBytes (BitVec.ofNat 64 e.num))
    (hne : pre ≠ varintBytes (BitVec.ofNat 64 e.num)) :
    ∃ r, decodeBitset A past (some (varintBytes (BitVec.ofNat 64 e.min) ++ pre)) bset₀ = .ok r ∧
      r.result = false := by
  have hle := e.le
  obtain ⟨v, hv⟩ := (reads_varint _).short pre hpre hne
  refine ⟨⟨false, TxbitsSet.empty, none, false⟩, ?_, rfl⟩
  have hmin : (BitVec.ofNat 64 e.min + 0).toNat = e.min := by
    rw [BitVec.toNat_add, BitVec.toNat_ofNat]
    simp
    omega
  have hAv : A (BitVec.ofNat 64 e.min + 0).toNat 8 = true := by
    rw [hmin]
    exact hA.1 _ (by omega)
  have hrange : lengthRange (BitVec.ofNat 64 e.min) 0 = [] := by
    rw [lengthRange, hmin, BitVec.toNat_ofNat, Nat.mod_eq_of_lt (by omega), Nat.sub_self]
    rfl
  obtain rfl := pullVarint_none_zero hv
  rw [decodeBitset_eq A past bset₀ ((reads_varint _).full _) hv, if_neg (by decide),
    if_neg (by rw [hAv]; decide), hrange]
  rfl

include hbset

/-- The input ends within the counts. -/
theorem decode_short_counts {pre : List U8}
    (hpre : pre <+: (List.range' e.min e.num).flatMap fun i => varintBytes (bset.count i))
    (hne : pre ≠ (List.range' e.min e.num).flatMap fun i => varintBytes (bset.count i)) :
    ∃ r, decodeBitset A past (some (varintBytes (BitVec.ofNat 64 e.min) ++
      (varintBytes (BitVec.ofNat 64 e.num) ++ pre))) bset₀ = .ok r ∧ r.result = false := by
  obtain ⟨nums, hnums⟩ := pullNums_short (hA.1 0 (by decide)) (fun i hi => e.in_range hi)
    (fun i hi => (e.count_fits hbset (e.fits_of_bset hA) hi).2.2) hpre hne
  have hd := e.decode_header (e.fits_of_bset hA) past bset₀ (some pre)
  rw [Option.getD_some, hnums] at hd
  rw [hd]
  exact ⟨_, rfl, rfl⟩

/-- The input ends within the strings: one of them cannot be read, or the padding cannot. -/
theorem decode_short_strings {pre : List U8} (hpre : pre <+: e.bits) (hne : pre ≠ e.bits) :
    ∃ r, decodeBitset A past (some (varintBytes (BitVec.ofNat 64 e.min) ++
      (varintBytes (BitVec.ofNat 64 e.num) ++
        ((List.range' e.min e.num).flatMap (fun i => varintBytes (bset.count i)) ++ pre))))
      bset₀ = .ok r ∧ r.result = false := by
  have hnums := pullNums_ok (fun i hi => e.count_fits hbset (e.fits_of_bset hA) hi) pre
  have hstart : At pre 0 ⟨some pre, 0, false, fun _ => rfl⟩ := ⟨Nat.zero_le _, rfl, rfl⟩
  obtain ⟨go, bset', c, hr, hat⟩ := pullLengths_step past hbset
    (fun i hi => e.nums_get hi) hstart TxbitsSet.empty
  have hd := e.decode_header (e.fits_of_bset hA) past bset₀
    (some ((List.range' e.min e.num).flatMap (fun i => varintBytes (bset.count i)) ++ pre))
  simp only [Option.getD_some, hnums, ok_bind, decodeStrings, hr] at hd
  rw [hd]
  cases go with
  | false => exact ⟨_, rfl, rfl⟩
  | true =>
    have hlen := e.length_bits
    have hlt : pre.length < e.bits.length :=
      lt_of_le_of_ne hpre.length_le fun h => hne (hpre.eq_of_length h)
    have hat' := hat rfl
    rw [Nat.zero_add] at hat'
    have hshort := skipPadding_short past hat' (by omega)
    exact ⟨_, rfl, hshort⟩

/-- A proper prefix of the encoding is refused, whatever byte lies past its end. -/
theorem decode_short {pre : List U8} (hpre : pre <+: e.bytes) (hne : pre ≠ e.bytes) :
    ∃ r, decodeBitset A past (some pre) bset₀ = .ok r ∧ r.result = false := by
  rw [bytes] at hpre hne
  rcases proper_prefix_append hpre hne with ⟨h, hne⟩ | ⟨pre, rfl, hpre, hne⟩
  · exact e.decode_short_min hA past bset₀ h hne
  rcases proper_prefix_append hpre hne with ⟨h, hne⟩ | ⟨pre, rfl, hpre, hne⟩
  · exact e.decode_short_num hA past bset₀ h hne
  rcases proper_prefix_append hpre hne with ⟨h, hne⟩ | ⟨pre, rfl, hpre, hne⟩
  · exact e.decode_short_counts hbset hA past bset₀ h hne
  · exact e.decode_short_strings hbset hA past bset₀ hpre hne

end BitsetEncoding

/-- **Round trip of a set of bit strings.** Whatever the iteration order of the sets and whatever
follows the encoding, `decode_bitset` reads the set back and stops where the encoding ends; on a
proper prefix of the encoding it returns `false`. -/
theorem bitset_round_trip (A : Allocator) (past : U8) (bset bset₀ : TxbitsSet)
    (hbset : bset.WellFormed) (hA : bset.Fits A) :
    ∃ enc, (∀ arr, addBitset arr bset = .ok (arr ++ enc)) ∧
      (∀ rest, ∃ r, decodeBitset A past (some (enc ++ rest)) bset₀ = .ok r ∧ r.result = true ∧
        r.bset.Same bset ∧ r.cursor = some rest) ∧
      ∀ pre, pre <+: enc → pre ≠ enc →
        ∃ r, decodeBitset A past (some pre) bset₀ = .ok r ∧ r.result = false := by
  obtain ⟨e, -, he⟩ := addBitset_ok hbset
  exact ⟨e.bytes, he, e.decode_append hbset (e.fits_of_bset hA) past bset₀,
    fun pre => e.decode_short hbset hA past bset₀⟩

/-- Two strings of length 2. -/
def twoStrings : TxbitsSet :=
  TxbitsSet.empty.set 2 ⟨[[true, false], [true, true]], by decide⟩

theorem twoStrings_wellFormed : twoStrings.WellFormed := by
  refine ⟨rfl, fun i v hv => ?_⟩
  rw [twoStrings, TxbitsSet.strings_set, TxbitsSet.strings_empty] at hv
  split_ifs at hv with he
  · subst he
    rcases List.mem_pair.mp hv with rfl | rfl <;> rfl
  · exact absurd hv List.not_mem_nil

theorem bitset_round_trip_twoStrings : ∃ enc,
    (∀ arr, addBitset arr twoStrings = .ok (arr ++ enc)) ∧
      ∀ rest, ∃ r, decodeBitset (fun _ _ => true) 0xFF (some (enc ++ rest)) TxbitsSet.empty =
        .ok r ∧ r.result = true ∧ r.bset.Same twoStrings ∧ r.cursor = some rest := by
  obtain ⟨enc, henc, hdec, -⟩ := bitset_round_trip (fun _ _ => true) 0xFF twoStrings TxbitsSet.empty
    twoStrings_wellFormed ⟨fun _ _ => rfl, fun _ _ => rfl⟩
  exact ⟨enc, henc, hdec⟩

end BitcoinIblt
