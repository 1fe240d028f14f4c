import BitcoinIblt.WireEncode

/-!
# The header of a set of bit strings

`decode_bitset` tests the number of lengths against 49, but not the largest of them. It keeps within
its arrays exactly when the header declares no lengths, too many lengths, or lengths up to 48
(`decodeBitset_header`).
-/

namespace BitcoinIblt

open StickyParser

/-- The numbers at the start: the smallest length and the number of lengths. -/
def bitsetHeader (p : Cursor U8) : Run (U64 × U64) := do
  let (min, p) ← pullVarint p
  let (num, _) ← pullVarint p
  return (min, num)

/-! ## The readers return -/

/-- A varint that is not zero has been read. -/
theorem pullVarint_none_zero {p : Cursor U8} {v : U64} (h : pullVarint p = .ok (v, none)) :
    v = 0 := by
  have hdecode : ∀ (n : ℕ) (dec : List U8 → U64) (bs : List U8),
      pullDecode n 0 dec (some bs) = .ok (v, none) → v = 0 := by
    intro n dec bs h
    rw [pullDecode, bind_apply] at h
    by_cases hlt : bs.length < n
    · rw [pull_short hlt] at h
      cases h
      rfl
    · rw [pull, dif_neg hlt] at h
      cases h
  cases p with
  | none => cases h; rfl
  | some bs =>
    cases bs with
    | nil => rw [pullVarint_nil] at h; cases h; rfl
    | cons b bs =>
      rw [pullVarint_cons, pullVarintRest] at h
      split_ifs at h
      · cases h
      · exact hdecode _ _ _ h
      · exact hdecode _ _ _ h
      · exact hdecode _ _ _ h

theorem TxbitsSet.assign_ok {bset : TxbitsSet} {i : ℕ} (h : i < 49) (s : UnorderedSet (List Bool)) :
    bset.assign i s = .ok (bset.set i s) := dif_pos h

theorem TxbitsSet.entry_ok {bset : TxbitsSet} {i : ℕ} (h : i < 49) :
    bset.entry i = .ok bset[i] := dif_pos h

/-! ## The loops return or run out of range -/

/-- Between two bytes there is no padding. -/
theorem skipPadding_aligned (past : U8) {c : BitCursor} (h : c.bitoff = 0) :
    skipPadding past c = (true, c) := by
  rw [skipPadding, dif_pos h]

/-- One string. -/
theorem pullStrings_succ (past : U8) {i : ℕ} (hi : i < 49) (n : ℕ) (bset : TxbitsSet)
    (c : BitCursor) :
    pullStrings past i (n + 1) bset c =
      if (pullString past i c).2.cursor = none then
        .ok (false, bset.set i (bset[i].insert (pullString past i c).1), (pullString past i c).2)
      else
        pullStrings past i n (bset.set i (bset[i].insert (pullString past i c).1))
          (pullString past i c).2 := by
  rw [pullStrings]
  simp only [TxbitsSet.entry_ok hi, ok_bind, TxbitsSet.assign_ok hi]
  rfl

/-- One count. -/
theorem pullNums_cons {A : Allocator} {i : ℕ} {nums : List U64} (h₁ : i < 49)
    (h₂ : i < nums.length) {p q : Cursor U8} {v : U64} (hv : pullVarint p = .ok (v, q))
    (is : List ℕ) (bset : TxbitsSet) :
    pullNums A (i :: is) nums bset p =
      if A v.toNat 8 = false then .error .lengthError
      else pullNums A is (nums.set i v) (bset.set i UnorderedSet.empty) q := by
  rw [pullNums, hv]
  simp only [ok_bind, if_neg (Nat.not_le.mpr h₂), TxbitsSet.assign_ok h₁]
  rfl

theorem pullStrings_returns (past : U8) {i : ℕ} (hi : i < 49) (n : ℕ) (bset : TxbitsSet)
    (c : BitCursor) : ∃ r, pullStrings past i n bset c = .ok r := by
  induction n generalizing bset c with
  | zero => exact ⟨_, rfl⟩
  | succ n ih =>
    rw [pullStrings_succ past hi]
    split_ifs
    · exact ⟨_, rfl⟩
    · exact ih _ _

theorem pullLengths_returns (past : U8) {nums : List U64} {is : List ℕ}
    (h : ∀ i ∈ is, i < 49 ∧ i < nums.length) (bset : TxbitsSet) (c : BitCursor) :
    ∃ r, pullLengths past nums is bset c = .ok r := by
  induction is generalizing bset c with
  | nil => exact ⟨_, rfl⟩
  | cons i is ih =>
    obtain ⟨h₁, h₂⟩ := h i List.mem_cons_self
    obtain ⟨⟨go, bset', c'⟩, hr⟩ := pullStrings_returns past h₁ nums[i].toNat bset c
    rw [pullLengths, List.getElem?_eq_getElem h₂]
    simp only [hr, ok_bind]
    split_ifs
    · exact ih (fun j hj => h j (List.mem_cons_of_mem i hj)) _ _
    · exact ⟨_, rfl⟩

/-- With all lengths in range, reading the counts returns or an allocation fails. -/
theorem pullNums_in_range (A : Allocator) {is : List ℕ} {nums : List U64}
    (h : ∀ i ∈ is, i < 49 ∧ i < nums.length) (bset : TxbitsSet) (p : Cursor U8) :
    pullNums A is nums bset p = .error .lengthError ∨
      ∃ nums' bset' p', pullNums A is nums bset p = .ok (nums', bset', p') ∧
        nums'.length = nums.length := by
  induction is generalizing nums bset p with
  | nil => exact Or.inr ⟨_, _, _, rfl, rfl⟩
  | cons i is ih =>
    obtain ⟨h₁, h₂⟩ := h i List.mem_cons_self
    obtain ⟨n, q, hq⟩ := pullVarint_returns p
    rw [pullNums_cons h₁ h₂ hq]
    by_cases hA : A n.toNat 8 = false
    · exact Or.inl (if_pos hA)
    · rw [if_neg hA]
      have h' : ∀ j ∈ is, j < 49 ∧ j < (nums.set i n).length := fun j hj => by
        rw [List.length_set]
        exact h j (List.mem_cons_of_mem i hj)
      simpa using ih h' (bset.set i UnorderedSet.empty) q

/-- With a length of 49 or more, reading the counts does not return. -/
theorem pullNums_out_of_range (A : Allocator) {is : List ℕ} (h : ∃ i ∈ is, 49 ≤ i)
    (nums : List U64) (bset : TxbitsSet) (p : Cursor U8) :
    ∀ r, pullNums A is nums bset p ≠ .ok r := by
  induction is generalizing nums bset p with
  | nil => exact absurd h (by simp)
  | cons i is ih =>
    intro r
    obtain ⟨n, q, hq⟩ := pullVarint_returns p
    rw [pullNums, hq]
    simp only [ok_bind]
    split_ifs
    · exact nofun
    · exact nofun
    · by_cases hi : i < 49
      · rw [TxbitsSet.assign_ok hi]
        refine ih ?_ _ _ _ r
        obtain ⟨j, hj, hj49⟩ := h
        rcases List.mem_cons.mp hj with rfl | hj
        · omega
        · exact ⟨j, hj, hj49⟩
      · rw [TxbitsSet.assign, dif_neg hi]
        exact nofun

/-! ## The header -/

theorem mem_lengthRange {min num : U64} {i : ℕ} :
    i ∈ lengthRange min num ↔ min.toNat ≤ i ∧ i < (min + num).toNat := by
  rw [lengthRange, List.mem_range'_1]
  omega

/-- What is left to do once the two numbers have been read. -/
theorem decodeBitset_eq (A : Allocator) (past : U8) (bset : TxbitsSet) {p p₁ p₂ : Cursor U8}
    {min num : U64} (hmin : pullVarint p = .ok (min, p₁)) (hnum : pullVarint p₁ = .ok (num, p₂)) :
    decodeBitset A past p bset =
      if 49 < num.toNat then .ok ⟨false, bset, p₂, false⟩
      else if A (min + num).toNat 8 = false then .error .lengthError
      else (do
        let (nums, bset, p) ← pullNums A (lengthRange min num)
          (List.replicate (min + num).toNat 0) TxbitsSet.empty p₂
        match p with
        | none => return ⟨false, bset, none, false⟩
        | some p => decodeStrings past nums (lengthRange min num) bset p) := by
  rw [decodeBitset, hmin]
  simp only [ok_bind, hnum]
  rfl

/-- Lengths in range: nothing is indexed out of range. -/
theorem decodeBitset_in_range (A : Allocator) (past : U8) (bset : TxbitsSet) {p p₁ p₂ : Cursor U8}
    {min num : U64} (hmin : pullVarint p = .ok (min, p₁)) (hnum : pullVarint p₁ = .ok (num, p₂))
    (h : num.toNat = 0 ∨ 49 < num.toNat ∨ min.toNat + num.toNat ≤ 49) :
    decodeBitset A past p bset ≠ .error .outOfRange := by
  have hadd := BitVec.toNat_add min num
  have hlt := min.isLt
  rw [decodeBitset_eq A past bset hmin hnum]
  split_ifs with h₁ h₂
  · exact nofun
  · exact nofun
  · have hrange : ∀ i ∈ lengthRange min num,
        i < 49 ∧ i < (List.replicate (min + num).toNat (0 : U64)).length := by
      intro i hi
      rw [mem_lengthRange] at hi
      rw [List.length_replicate]
      omega
    rcases pullNums_in_range A hrange TxbitsSet.empty p₂ with hr | ⟨nums, bset', q, hr, hlen⟩
    · rw [hr]
      exact nofun
    · rw [hr, ok_bind]
      rw [← hlen] at hrange
      cases q with
      | none => exact nofun
      | some q =>
        obtain ⟨⟨go, bset', c⟩, hc⟩ := pullLengths_returns past hrange bset'
          ⟨some q, 0, false, fun _ => rfl⟩
        simp only [decodeStrings, hc, ok_bind]
        split_ifs <;> exact nofun

/-- Lengths out of range that the test misses: the call does not return `false`. -/
theorem decodeBitset_out_of_range (A : Allocator) (past : U8) (bset : TxbitsSet)
    {p p₁ p₂ : Cursor U8} {min num : U64} (hmin : pullVarint p = .ok (min, p₁))
    (hnum : pullVarint p₁ = .ok (num, p₂)) (h₀ : 0 < num.toNat) (h₄₉ : num.toNat ≤ 49)
    (hsum : 49 < min.toNat + num.toNat) (r : Decoded) (hr : decodeBitset A past p bset = .ok r) :
    r.result = true := by
  have hadd := BitVec.toNat_add min num
  have hlt := min.isLt
  rw [decodeBitset_eq A past bset hmin hnum, if_neg (Nat.not_lt.mpr h₄₉)] at hr
  by_cases hA : A (min + num).toNat 8 = false
  · rw [if_pos hA] at hr
    cases hr
  · rw [if_neg hA] at hr
    by_cases hwrap : min.toNat + num.toNat < 2 ^ 64
    · -- the loop reaches a length of 49 or more
      have hbig : ∃ i ∈ lengthRange min num, 49 ≤ i :=
        ⟨min.toNat + num.toNat - 1, mem_lengthRange.mpr ⟨by omega, by omega⟩, by omega⟩
      cases hp : pullNums A (lengthRange min num) (List.replicate (min + num).toNat 0)
          TxbitsSet.empty p₂ with
      | ok x => exact absurd hp (pullNums_out_of_range A hbig _ _ _ x)
      | error f => rw [hp] at hr; cases hr
    · -- the sum wraps, and neither loop does anything
      have hnil : lengthRange min num = [] := by
        rw [lengthRange, show (min + num).toNat - min.toNat = 0 by omega]
        rfl
      obtain ⟨q, rfl⟩ : ∃ q, p₂ = some q := by
        cases p₂ with
        | none => rw [pullVarint_none_zero hnum] at h₀; exact absurd h₀ (by decide)
        | some q => exact ⟨q, rfl⟩
      rw [hnil, pullNums, ok_bind] at hr
      simp only [decodeStrings, pullLengths, ok_bind, if_true] at hr
      rw [skipPadding_aligned past rfl] at hr
      cases hr
      rfl

/-- **Malformed headers.** Call a header good when `decode_bitset` indexes nothing out of range
and, if the header declares lengths above 48, returns `false`. The headers that are good are those
with no lengths, with more than 49 lengths, and with lengths up to 48. -/
theorem decodeBitset_header (A : Allocator) (past : U8) (bset : TxbitsSet) (bytes : List U8) :
    ∃ min num, bitsetHeader (some bytes) = .ok (min, num) ∧
      ((decodeBitset A past (some bytes) bset ≠ .error .outOfRange ∧
        (0 < num.toNat → 49 < min.toNat + num.toNat →
          ∃ r, decodeBitset A past (some bytes) bset = .ok r ∧ r.result = false)) ↔
        num.toNat = 0 ∨ 49 < num.toNat ∨ min.toNat + num.toNat ≤ 49) := by
  obtain ⟨min, p₁, hmin⟩ := pullVarint_returns (some bytes)
  obtain ⟨num, p₂, hnum⟩ := pullVarint_returns p₁
  refine ⟨min, num, by simp only [bitsetHeader, hmin, hnum, ok_bind]; rfl, ?_, fun h => ⟨?_, ?_⟩⟩
  · rintro ⟨-, hfalse⟩
    by_contra hne
    obtain ⟨r, hr, hres⟩ := hfalse (by omega) (by omega)
    have := decodeBitset_out_of_range A past bset hmin hnum (by omega) (by omega) (by omega) r hr
    rw [hres] at this
    cases this
  · exact decodeBitset_in_range A past bset hmin hnum h
  · intro h₀ hsum
    refine ⟨⟨false, bset, p₂, false⟩, ?_, rfl⟩
    rw [decodeBitset_eq A past bset hmin hnum]
    exact if_pos (by omega)

/-- Smallest length 48, two lengths: the second is out of range. -/
theorem decodeBitset_header_48_2 :
    bitsetHeader (some [48, 2, 0, 0]) = .ok (48, 2) ∧
      decodeBitset (fun _ _ => true) 0 (some [48, 2, 0, 0]) TxbitsSet.empty =
        .error .outOfRange :=
  ⟨rfl, rfl⟩

end BitcoinIblt
