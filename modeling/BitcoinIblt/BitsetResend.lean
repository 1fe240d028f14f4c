import BitcoinIblt.BitsetPointers

/-!
# Sending a received set of bit strings on

`decode_bitset` accepts more than `add_bitset` writes: varints longer than they need be, counts of
zero at either end, the same string twice. What it returns from such input can be sent on all the
same, with one exception. A smallest length of 0 has it read strings without bits, and the set gets
the empty string as an entry; `txbitsSet[0]` is to hold none, and `add_bitset` does not look there
(`decodeBitset_resend_iff`).
-/

namespace BitcoinIblt

open StickyParser

/-! ## The set without the empty string -/

namespace TxbitsSet

variable (bset : TxbitsSet)

/-- The strings that `add_bitset` looks at. -/
def withoutEmpty (bset : TxbitsSet) : TxbitsSet := bset.set 0 UnorderedSet.empty

theorem strings_withoutEmpty (i : ℕ) :
    bset.withoutEmpty.strings i = if i = 0 then [] else bset.strings i :=
  bset.strings_set (Nat.succ_pos 48) UnorderedSet.empty i

theorem withoutEmpty_same_iff : bset.withoutEmpty.Same bset ↔ bset.strings 0 = [] := by
  rw [strings_of_lt _ (Nat.succ_pos 48)]
  constructor
  · intro h
    refine List.eq_nil_iff_forall_not_mem.mpr fun v hv => ?_
    have := (h 0 (by decide) v).mpr hv
    rw [withoutEmpty, Vector.getElem_set_self] at this
    exact UnorderedSet.not_mem_empty v this
  · intro h i hi v
    rw [withoutEmpty, Vector.getElem_set]
    split_ifs with h₀
    · subst h₀
      rw [UnorderedSet.mem_def, UnorderedSet.mem_def, h]
      rfl
    · rfl

theorem Same.trans_iff {b₁ b₂ b₃ : TxbitsSet} (h : b₁.Same b₂) : b₁.Same b₃ ↔ b₂.Same b₃ :=
  forall_congr' fun i => forall_congr' fun hi => forall_congr' fun v => by rw [h i hi v]

end TxbitsSet

/-- The scan for the lengths starts at 1. -/
theorem scanLengths_withoutEmpty (bset : TxbitsSet) :
    scanLengths bset.withoutEmpty = scanLengths bset := by
  refine List.foldl_ext _ _ _ fun m i hi => ?_
  have hpos : ∀ i ∈ (List.finRange 49).tail, i.val ≠ 0 := by decide
  have hget : bset.withoutEmpty[i] = bset[i] :=
    Vector.getElem_set_ne (by decide) i.isLt (hpos i hi).symm
  simp only [hget]

/-- A loop over lengths above 0. -/
theorem foldlM_withoutEmpty {β : Type} (bset : TxbitsSet) {is : List ℕ} (h : ∀ i ∈ is, 0 < i)
    (f : β → ℕ → UnorderedSet (List Bool) → Run β) (b : β) :
    is.foldlM (fun b i => do f b i (← bset.withoutEmpty.entry i)) b =
      is.foldlM (fun b i => do f b i (← bset.entry i)) b := by
  induction is generalizing b with
  | nil => rfl
  | cons i is ih =>
    have hentry : bset.withoutEmpty.entry i = bset.entry i := by
      unfold TxbitsSet.entry
      split_ifs with hi
      · have hne : 0 ≠ i := (h i List.mem_cons_self).ne
        rw [TxbitsSet.withoutEmpty, Vector.getElem_set_ne (by decide) hi hne]
      · rfl
    rw [List.foldlM_cons, List.foldlM_cons, hentry]
    congr 1
    funext b
    exact ih (fun j hj => h j (List.mem_cons_of_mem i hj)) b

theorem addBitset_withoutEmpty (arr : List U8) (bset : TxbitsSet) :
    addBitset arr bset.withoutEmpty = addBitset arr bset := by
  have hmin := (scanLengths_spec bset).1
  have hpos : ∀ i ∈ List.range' (scanLengths bset).1
      ((scanLengths bset).2 - (scanLengths bset).1 + 1), 0 < i := fun i hi => by
    rw [List.mem_range'_1] at hi
    omega
  unfold addBitset
  rw [scanLengths_withoutEmpty]
  simp only [foldlM_withoutEmpty bset hpos fun (state : List U8 × ℕ) _ s => packStrings state s,
    foldlM_withoutEmpty bset hpos fun (state : List U8 × ℕ) i s =>
      pure (state.1 ++ varintBytes (BitVec.ofNat 64 s.size), state.2 + i * s.size)]

/-! ## What is read -/

theorem length_pullString (past : U8) (n : ℕ) (c : BitCursor) :
    (pullString past n c).1.length = n := by
  induction n generalizing c with
  | zero => rfl
  | succ n ih => rw [pullString_succ, List.length_cons, ih]

/-- What `n` strings of length `i` leave of each other: equal ones are one. -/
structure Distinct (i n : ℕ) (l : List (List Bool)) : Prop where
  length : ∀ v ∈ l, v.length = i
  le : l.length ≤ n
  nonempty : 0 < n → l ≠ []

theorem Distinct.insert {i n : ℕ} {s : UnorderedSet (List Bool)} (h : Distinct i n s.toList)
    {v : List Bool} (hv : v.length = i) : Distinct i (n + 1) (s.insert v).toList := by
  refine ⟨fun w hw => ?_, ?_, fun _ hnil => ?_⟩
  · rcases UnorderedSet.mem_insert.mp hw with rfl | hw
    · exact hv
    · exact h.length w hw
  · have hle := s.size_insert_le v
    have := h.le
    simp only [UnorderedSet.size] at hle
    omega
  · have hmem : v ∈ s.insert v := UnorderedSet.mem_insert.mpr (Or.inl rfl)
    rw [UnorderedSet.mem_def, hnil] at hmem
    exact List.not_mem_nil hmem

/-- The strings of one length. -/
theorem pullStrings_distinct (past : U8) {i : ℕ} (hi : i < 49) (n : ℕ) {m : ℕ}
    {bset bset' : TxbitsSet} {c c' : BitCursor}
    (h : pullStrings past i n bset c = .ok (true, bset', c')) (hm : Distinct i m (bset.strings i)) :
    Distinct i (m + n) (bset'.strings i) ∧ ∀ j, j ≠ i → bset'.strings j = bset.strings j := by
  induction n generalizing m bset c with
  | zero =>
    cases h
    exact ⟨hm, fun j _ => rfl⟩
  | succ n ih =>
    rw [pullStrings_succ past hi] at h
    split_ifs at h
    · cases h
    · rw [bset.strings_of_lt hi] at hm
      have hm' := hm.insert (length_pullString past i c)
      obtain ⟨h₁, h₂⟩ := ih h (by rwa [bset.strings_set hi, if_pos rfl])
      refine ⟨by rwa [show m + (n + 1) = m + 1 + n by omega], fun j hj => ?_⟩
      rw [h₂ j hj, bset.strings_set hi, if_neg hj]

/-- The strings of a length that are read before those of the next one. -/
theorem of_pullLengths_cons_ok {past : U8} {nums : List U64} {i : ℕ} {is : List ℕ}
    {bset bset' : TxbitsSet} {c c' : BitCursor}
    (h : pullLengths past nums (i :: is) bset c = .ok (true, bset', c')) :
    ∃ n bset₁ c₁, nums[i]? = some n ∧ pullStrings past i n.toNat bset c = .ok (true, bset₁, c₁) ∧
      pullLengths past nums is bset₁ c₁ = .ok (true, bset', c') := by
  rw [pullLengths] at h
  cases hn : nums[i]? with
  | none =>
    rw [hn] at h
    cases h
  | some n =>
    rw [hn] at h
    obtain ⟨⟨go, bset₁, c₁⟩, hr, h⟩ := of_bind_ok h
    cases go with
    | false => cases h
    | true => exact ⟨n, bset₁, c₁, rfl, hr, h⟩

/-- The strings of all lengths. -/
theorem pullLengths_distinct (past : U8) {nums : List U64} {is : List ℕ} (hnodup : is.Nodup)
    (h₄₉ : ∀ i ∈ is, i < 49) {bset bset' : TxbitsSet} {c c' : BitCursor}
    (hempty : ∀ i ∈ is, bset.strings i = [])
    (h : pullLengths past nums is bset c = .ok (true, bset', c')) :
    (∀ i ∈ is, ∃ n, nums[i]? = some n ∧ Distinct i n.toNat (bset'.strings i)) ∧
      ∀ j, j ∉ is → bset'.strings j = bset.strings j := by
  induction is generalizing bset c with
  | nil =>
    cases h
    exact ⟨fun i hi => absurd hi List.not_mem_nil, fun j _ => rfl⟩
  | cons i is ih =>
    obtain ⟨hi, hnodup⟩ := List.nodup_cons.mp hnodup
    obtain ⟨hi₄₉, h₄₉⟩ := List.forall_mem_cons.mp h₄₉
    obtain ⟨hnil, hempty⟩ := List.forall_mem_cons.mp hempty
    obtain ⟨n, bset₁, c₁, hn, hr, h⟩ := of_pullLengths_cons_ok h
    have hnone : Distinct i 0 (bset.strings i) := by
      rw [hnil]
      exact ⟨fun v hv => absurd hv List.not_mem_nil, Nat.zero_le _,
        fun h₀ => absurd h₀ (Nat.lt_irrefl 0)⟩
    obtain ⟨hdistinct, hother⟩ := pullStrings_distinct past hi₄₉ n.toNat hr hnone
    rw [Nat.zero_add] at hdistinct
    have hempty₁ : ∀ j ∈ is, bset₁.strings j = [] := by
      intro j hj
      have hne : j ≠ i := fun e => hi (e ▸ hj)
      rw [hother j hne, hempty j hj]
    obtain ⟨h₁, h₂⟩ := ih hnodup h₄₉ hempty₁ h
    constructor
    · refine List.forall_mem_cons.mpr ⟨⟨n, hn, ?_⟩, h₁⟩
      rwa [h₂ i hi]
    · intro j hj
      rw [List.mem_cons, not_or] at hj
      rw [h₂ j hj.2, hother j hj.1]

/-- A count that is read. -/
theorem of_pullNums_cons_ok {A : Allocator} {i : ℕ} {is : List ℕ} {nums nums' : List U64}
    {bset bset' : TxbitsSet} {p p' : Cursor U8}
    (h : pullNums A (i :: is) nums bset p = .ok (nums', bset', p')) :
    ∃ (n : U64) (q : Cursor U8) (_ : i < 49), pullVarint p = .ok (n, q) ∧ i < nums.length ∧
      A n.toNat 8 = true ∧
      pullNums A is (nums.set i n) (bset.set i UnorderedSet.empty) q = .ok (nums', bset', p') := by
  obtain ⟨n, q, hq⟩ := pullVarint_returns p
  have h₁ : i < 49 := Nat.lt_of_not_le fun hle =>
    pullNums_out_of_range A ⟨i, List.mem_cons_self, hle⟩ nums bset p _ h
  by_cases h₂ : i < nums.length
  · rw [pullNums_cons h₁ h₂ hq] at h
    split_ifs at h with hA
    exact ⟨n, q, h₁, hq, h₂, (Bool.not_eq_false _).mp hA, h⟩
  · rw [pullNums, hq] at h
    simp only [ok_bind, if_pos (Nat.le_of_not_lt h₂)] at h
    cases h

/-- The counts of all lengths. -/
theorem pullNums_counts {A : Allocator} {is : List ℕ} (hnodup : is.Nodup) {nums nums' : List U64}
    {bset' : TxbitsSet} {p p' : Cursor U8}
    (h : pullNums A is nums TxbitsSet.empty p = .ok (nums', bset', p')) :
    bset' = TxbitsSet.empty ∧
      (∀ i ∈ is, i < 49 ∧ ∃ n, nums'[i]? = some n ∧ A n.toNat 8 = true) ∧
      ∀ j, j ∉ is → nums'[j]? = nums[j]? := by
  induction is generalizing nums p with
  | nil =>
    cases h
    exact ⟨rfl, fun i hi => absurd hi List.not_mem_nil, fun j _ => rfl⟩
  | cons i is ih =>
    obtain ⟨hi, hnodup⟩ := List.nodup_cons.mp hnodup
    obtain ⟨n, q, hi₄₉, -, hlt, hA, h⟩ := of_pullNums_cons_ok h
    rw [TxbitsSet.empty_set i hi₄₉] at h
    obtain ⟨rfl, h₁, h₂⟩ := ih hnodup h
    refine ⟨rfl, List.forall_mem_cons.mpr ⟨⟨hi₄₉, n, ?_, hA⟩, h₁⟩, fun j hj => ?_⟩
    · rw [h₂ i hi, List.getElem?_set_self hlt]
    · rw [List.mem_cons, not_or] at hj
      rw [h₂ j hj.2, List.getElem?_set_ne (Ne.symm hj.1)]

/-! ## What the input declares -/

/-- The header, and the first of the counts. -/
def bitsetStart : Pull (U64 × U64 × U64) := do
  let min ← pullVarint
  let num ← pullVarint
  let count ← pullVarint
  return (min, num, count)

/-- The smallest length is 0, and there are strings of that length. -/
def DeclaresEmptyString (bytes : List U8) : Prop :=
  ∃ num count p, bitsetStart (some bytes) = .ok ((0, num, count), p) ∧ num ≠ 0 ∧ count ≠ 0

/-- A set read from `bytes`: the lengths in use are in range, and each has as many strings as are
declared or fewer. -/
structure Received (A : Allocator) (bytes : List U8) (bset : TxbitsSet) where
  min : U64
  num : U64
  count : ℕ → U64
  fits : A (min + num).toNat 8 = true
  distinct : ∀ i ∈ lengthRange min num, i < 49 ∧ A (count i).toNat 8 = true ∧
    Distinct i (count i).toNat (bset.strings i)
  rest : ∀ i, i ∉ lengthRange min num → bset.strings i = []
  /-- the first count that is read is the one of the smallest length, if there are any -/
  start : ∃ n p, bitsetStart (some bytes) = .ok ((min, num, n), p) ∧
    (min.toNat ∈ lengthRange min num → n = count min.toNat)

/-- The first of the counts. -/
theorem first_count {A : Allocator} {m k : ℕ} {nums nums' : List U64} {bset' : TxbitsSet}
    {p p' : Cursor U8}
    (h : pullNums A (List.range' m k) nums TxbitsSet.empty p = .ok (nums', bset', p')) :
    ∃ n q, pullVarint p = .ok (n, q) ∧ (m ∈ List.range' m k → nums'[m]? = some n) := by
  cases k with
  | zero =>
    obtain ⟨n, q, hn⟩ := pullVarint_returns p
    exact ⟨n, q, hn, fun hm => absurd hm List.not_mem_nil⟩
  | succ k =>
    rw [List.range'_succ] at h
    obtain ⟨n, q, h₄₉, hn, hlt, -, h⟩ := of_pullNums_cons_ok h
    rw [TxbitsSet.empty_set m h₄₉] at h
    refine ⟨n, q, hn, fun _ => ?_⟩
    have hm : m ∉ List.range' (m + 1) k := fun hm => by
      rw [List.mem_range'_1] at hm
      omega
    rw [(pullNums_counts (List.nodup_range' ..) h).2.2 m hm, List.getElem?_set_self hlt]

theorem nodup_lengthRange (min num : U64) : (lengthRange min num).Nodup := List.nodup_range' ..

theorem bitsetStart_eq {p p₁ p₂ p₃ : Cursor U8} {min num n : U64}
    (hmin : pullVarint p = .ok (min, p₁)) (hnum : pullVarint p₁ = .ok (num, p₂))
    (hn : pullVarint p₂ = .ok (n, p₃)) : bitsetStart p = .ok ((min, num, n), p₃) := by
  rw [bitsetStart, bind_apply, hmin]
  show (pullVarint >>= _ : Pull _) p₁ = _
  rw [bind_apply, hnum]
  show (pullVarint >>= _ : Pull _) p₂ = _
  rw [bind_apply, hn]
  rfl

/-- The loops that accepted input has been through. -/
theorem loops_of_accepted {A : Allocator} {past : U8} {p p₁ p₂ : Cursor U8} {bset₀ : TxbitsSet}
    {min num : U64} (hmin : pullVarint p = .ok (min, p₁)) (hnum : pullVarint p₁ = .ok (num, p₂))
    {r : Decoded} (h : decodeBitset A past p bset₀ = .ok r) (hr : r.result = true) :
    A (min + num).toNat 8 = true ∧ ∃ nums bset p₃ c c',
      pullNums A (lengthRange min num) (List.replicate (min + num).toNat 0) TxbitsSet.empty p₂ =
        .ok (nums, bset, p₃) ∧
      pullLengths past nums (lengthRange min num) bset c = .ok (true, r.bset, c') := by
  rw [decodeBitset_eq A past bset₀ hmin hnum] at h
  split_ifs at h with h₄₉ hA
  · cases h
    cases hr
  refine ⟨(Bool.not_eq_false _).mp hA, ?_⟩
  obtain ⟨⟨nums, bset, p₃⟩, hp, h⟩ := of_bind_ok h
  cases p₃ with
  | none =>
    cases h
    cases hr
  | some area =>
    obtain ⟨⟨go, bset', c'⟩, hl, h⟩ := of_bind_ok h
    cases go with
    | false =>
      cases h
      cases hr
    | true =>
      cases h
      exact ⟨nums, bset, some area, _, c', hp, hl⟩

/-- Accepted input leaves a received set. -/
theorem received_of_accepted {A : Allocator} {past : U8} {bytes : List U8} {bset₀ : TxbitsSet}
    {r : Decoded} (h : decodeBitset A past (some bytes) bset₀ = .ok r) (hr : r.result = true) :
    Nonempty (Received A bytes r.bset) := by
  obtain ⟨min, p₁, hmin⟩ := pullVarint_returns (some bytes)
  obtain ⟨num, p₂, hnum⟩ := pullVarint_returns p₁
  obtain ⟨hA, nums, bset, p₃, c, c', hp, hl⟩ := loops_of_accepted hmin hnum h hr
  obtain ⟨rfl, hcounts, -⟩ := pullNums_counts (nodup_lengthRange min num) hp
  obtain ⟨hdistinct, hother⟩ := pullLengths_distinct past (nodup_lengthRange min num)
    (fun i hi => (hcounts i hi).1) (fun i _ => TxbitsSet.strings_empty i) hl
  obtain ⟨n, q, hn, hfirst⟩ := first_count hp
  refine ⟨⟨min, num, fun i => nums[i]?.getD 0, hA, ?_, ?_,
    n, q, bitsetStart_eq hmin hnum hn, ?_⟩⟩
  · intro i hi
    obtain ⟨hi₄₉, k, hk, hfits⟩ := hcounts i hi
    obtain ⟨k', hk', hd⟩ := hdistinct i hi
    rw [hk] at hk'
    cases hk'
    rw [hk]
    exact ⟨hi₄₉, hfits, hd⟩
  · intro i hi
    rw [hother i hi, TxbitsSet.strings_empty]
  · intro hm
    rw [hfirst hm]
    rfl

namespace Received

variable {A : Allocator} {bytes : List U8} {bset : TxbitsSet} (s : Received A bytes bset)

include s

theorem length_of_mem (i : ℕ) : ∀ v ∈ bset.strings i, v.length = i := by
  intro v hv
  by_cases hi : i ∈ lengthRange s.min s.num
  · exact (s.distinct i hi).2.2.length v hv
  · rw [s.rest i hi] at hv
    exact absurd hv List.not_mem_nil

/-- A length in use is one that the header declares. -/
theorem mem_lengthRange_of_ne {i : ℕ} (h : bset.strings i ≠ []) : i ∈ lengthRange s.min s.num :=
  by_contra fun hi => h (s.rest i hi)

omit s in
theorem zero_mem_lengthRange {min num : U64} :
    0 ∈ lengthRange min num ↔ min = 0 ∧ num ≠ 0 := by
  rw [mem_lengthRange]
  constructor
  · rintro ⟨hle, hlt⟩
    have hmin : min = 0 := BitVec.eq_of_toNat_eq (Nat.le_zero.mp hle)
    refine ⟨hmin, fun hnum => ?_⟩
    rw [hmin, hnum] at hlt
    exact absurd hlt (by decide)
  · rintro ⟨rfl, hnum⟩
    rw [show 0 + num = num from BitVec.zero_add num]
    exact ⟨le_rfl, Nat.pos_of_ne_zero fun e => hnum (BitVec.eq_of_toNat_eq e)⟩

/-- The set has the empty string when a string without bits is declared. -/
theorem strings_zero_ne_iff : bset.strings 0 ≠ [] ↔ DeclaresEmptyString bytes := by
  obtain ⟨min, num, count, -, hdistinct, hrest, n, p, hstart, hfirst⟩ := s
  constructor
  · intro h
    have hmem : 0 ∈ lengthRange min num := by_contra fun h₀ => h (hrest 0 h₀)
    obtain ⟨rfl, hnum⟩ := zero_mem_lengthRange.mp hmem
    refine ⟨num, n, p, hstart, hnum, fun hzero => ?_⟩
    have hle := (hdistinct 0 hmem).2.2.le
    rw [show count 0 = 0 from (hfirst hmem).symm.trans hzero] at hle
    exact absurd hle (Nat.not_le.mpr (List.length_pos_iff.mpr h))
  · rintro ⟨num', n', p', hstart', hnum, hn⟩
    rw [hstart] at hstart'
    cases hstart'
    have hmem : 0 ∈ lengthRange 0 num := zero_mem_lengthRange.mpr ⟨rfl, hnum⟩
    refine (hdistinct 0 hmem).2.2.nonempty (Nat.pos_of_ne_zero fun e => hn ?_)
    exact (hfirst hmem).trans (BitVec.eq_of_toNat_eq e)

theorem wellFormed : bset.withoutEmpty.WellFormed := by
  refine ⟨by rw [bset.strings_withoutEmpty, if_pos rfl], fun i v hv => ?_⟩
  rw [bset.strings_withoutEmpty] at hv
  split_ifs at hv
  · exact absurd hv List.not_mem_nil
  · exact s.length_of_mem i v hv

end Received

/-- Where an array fits, a smaller one does. -/
def Allocator.Monotone (A : Allocator) : Prop :=
  ∀ n m size, n ≤ m → A m size = true → A n size = true

/-- Reading the set again takes no more memory than reading it did. -/
theorem Received.encoding_fits {A : Allocator} (hA : A.Monotone) {bytes : List U8}
    {bset : TxbitsSet} (s : Received A bytes bset) {e : BitsetEncoding bset.withoutEmpty}
    (he : e.Tight) : e.Fits A := by
  have hzero : A 0 8 = true := hA _ _ 8 (Nat.zero_le _) s.fits
  constructor
  · rcases he with he | ⟨i, hne, he⟩
    · rwa [he]
    · rw [bset.strings_withoutEmpty] at hne
      split_ifs at hne with hi
      · exact absurd rfl hne
      · have hlt := (mem_lengthRange.mp (s.mem_lengthRange_of_ne hne)).2
        rw [he]
        exact hA _ _ 8 hlt s.fits
  · intro i _
    by_cases hne : bset.withoutEmpty.strings i = []
    · rwa [hne]
    · rw [bset.strings_withoutEmpty] at hne ⊢
      split_ifs at hne ⊢ with hi
      · exact absurd rfl hne
      · obtain ⟨-, hfits, hd⟩ := s.distinct i (s.mem_lengthRange_of_ne hne)
        exact hA _ _ 8 hd.le hfits

/-- **Sending a received set on.** Whatever `decode_bitset` accepts, `add_bitset` writes and
`decode_bitset` accepts again; it is the same set exactly when the input declared no string without
bits. -/
theorem decodeBitset_resend_iff {A : Allocator} (hA : A.Monotone) (past past' : U8)
    (bytes : List U8) (bset₀ bset₁ : TxbitsSet) (r : Decoded)
    (h : decodeBitset A past (some bytes) bset₀ = .ok r) (hr : r.result = true) :
    (∃ enc, addBitset [] r.bset = .ok enc ∧
      ∃ r', decodeBitset A past' (some enc) bset₁ = .ok r' ∧ r'.result = true ∧
        r'.bset.Same r.bset) ↔ ¬ DeclaresEmptyString bytes := by
  obtain ⟨s⟩ := received_of_accepted h hr
  obtain ⟨e, htight, henc⟩ := addBitset_ok s.wellFormed
  obtain ⟨r', hr', hresult, hsame, -⟩ :=
    e.decode_append s.wellFormed (s.encoding_fits hA htight) past' bset₁ []
  rw [List.append_nil] at hr'
  have henc' : addBitset [] r.bset = .ok e.bytes := by
    rw [← addBitset_withoutEmpty]
    exact henc []
  have hiff : r'.bset.Same r.bset ↔ ¬ DeclaresEmptyString bytes := by
    rw [hsame.trans_iff, r.bset.withoutEmpty_same_iff, ← s.strings_zero_ne_iff, not_not]
  rw [← hiff]
  constructor
  · rintro ⟨enc, hadd, r'', hdec, -, hsame'⟩
    rw [henc'] at hadd
    cases hadd
    rw [hr'] at hdec
    cases hdec
    exact hsame'
  · intro hsame'
    exact ⟨e.bytes, henc', r', hr', hresult, hsame'⟩

/-- One string of 8 bits, and none of 9. -/
theorem decodeBitset_resend_oneString : ∃ r,
    decodeBitset (fun _ _ => true) 0 (some [8, 2, 1, 0, 0xA5]) TxbitsSet.empty = .ok r ∧
      r.result = true ∧ ∃ enc, addBitset [] r.bset = .ok enc ∧
        ∃ r', decodeBitset (fun _ _ => true) 0xFF (some enc) TxbitsSet.empty = .ok r' ∧
          r'.result = true ∧ r'.bset.Same r.bset := by
  obtain ⟨r, hr, hresult⟩ : ∃ r, decodeBitset (fun _ _ => true) 0 (some [8, 2, 1, 0, 0xA5])
      TxbitsSet.empty = .ok r ∧ r.result = true := by
    obtain ⟨bset, hl⟩ : ∃ bset, pullLengths 0 [0, 0, 0, 0, 0, 0, 0, 0, 1, 0] [8, 9] TxbitsSet.empty
      ⟨some [0xA5], 0, false, fun _ => rfl⟩ =
        .ok (true, bset, ⟨some [], 0, false, fun _ => rfl⟩) := ⟨_, rfl⟩
    refine ⟨⟨true, bset, some [], false⟩, ?_, rfl⟩
    show decodeStrings 0 [0, 0, 0, 0, 0, 0, 0, 0, 1, 0] [8, 9] TxbitsSet.empty [0xA5] = _
    rw [decodeStrings, hl, ok_bind]
    simp only [if_true, skipPadding_aligned]
    rfl
  refine ⟨r, hr, hresult, (decodeBitset_resend_iff (fun _ _ _ _ _ => rfl) 0 0xFF _ _
    TxbitsSet.empty r hr hresult).mpr ?_⟩
  rintro ⟨num, count, p, hstart, -, -⟩
  cases hstart

/-- One string without bits is declared. It is read, and not sent on. -/
theorem decodeBitset_resend_emptyString : ∃ r,
    decodeBitset (fun _ _ => true) 0 (some [0, 1, 1]) TxbitsSet.empty = .ok r ∧
      r.result = true ∧ addBitset [] r.bset = .ok [0, 0] ∧
        ∃ r', decodeBitset (fun _ _ => true) 0 (some [0, 0]) TxbitsSet.empty = .ok r' ∧
          r'.result = true ∧ ¬ r'.bset.Same r.bset := by
  refine ⟨_, rfl, ?_, by decide, _, rfl, ?_, fun h => ?_⟩
  · rw [skipPadding_aligned 0 rfl]
    rfl
  · rw [skipPadding_aligned 0 rfl]
    rfl
  · have := h 0 (by decide) []
    revert this
    decide

end BitcoinIblt
