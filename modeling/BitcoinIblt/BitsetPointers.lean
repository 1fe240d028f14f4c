import BitcoinIblt.BitsetCodec
import BitcoinIblt.Lib.Lockstep

/-!
# The bytes that `decode_bitset` dereferences

`decode_bitset` once more, as it works on its `const u8 **p` and `size_t *len`: a `Pointer` is an
offset into a memory `mem` that does not end where the buffer does, and it logs every offset that is
dereferenced. `decodeBitset_lockstep` connects it with the reader of a list of bytes: the two return
the same, and `overread` says whether an offset past the end was dereferenced.

`pull` checks the length before it moves on, `pull_bit` after. So an offset past the end is
dereferenced exactly when the strings take more bits than there are after the counts
(`decodeBitset_derefs_iff`).
-/

namespace BitcoinIblt

open Lockstep StickyParser

/-- `*p` and `*len`, and the offsets dereferenced so far. -/
structure Pointer where
  p : Option ℕ
  len : ℕ
  derefs : List ℕ

/-- The same inside the bit area, with `bitoff`. -/
structure BitPointer extends Pointer where
  bitoff : ℕ
  le : bitoff ≤ 7
  /-- between two bytes when `*p` is NULL -/
  aligned : p = none → bitoff = 0

namespace Pointer

/-- `*p = NULL`, with the length `pull` leaves. -/
def fail (s : Pointer) : Pointer := { s with p := none, len := 0 }

/-- `*p += n` and `*len -= n` -/
def advance (n : ℕ) (s : Pointer) : Pointer := { s with p := s.p.map (· + n), len := s.len - n }

/-- The byte at `o` has been dereferenced. -/
def log (o : ℕ) (s : Pointer) : Pointer := { s with derefs := o :: s.derefs }

section Varints

/-- `pull` without a destination: where the `n` bytes are, or NULL. -/
def pull (n : ℕ) : Stateful Fault Pointer (Option ℕ) :=
  modifyGet fun s => if s.len < n then (none, s.fail) else (s.p, s.advance n)

variable (mem : ℕ → U8)

/-- `*o` -/
def deref (o : ℕ) : Stateful Fault Pointer U8 := modifyGet fun s => (mem o, s.log o)

/-- `((u64)p[i] << (8 * i))` -/
def pulled (p i : ℕ) : Stateful Fault Pointer U64 := do
  return (← deref mem (p + i)).setWidth 64 <<< (8 * i)

def pullVarint : Stateful Fault Pointer U64 := do
  let some p ← pull 1 | return 0
  -- the first byte, which the source reads once for each test
  let b ← deref mem p
  if b < 0xfd then
    return b.setWidth 64
  else if b = 0xfd then
    let some p ← pull 2 | return 0
    return (← pulled mem p 1) + (← pulled mem p 0)
  else if b = 0xfe then
    let some p ← pull 4 | return 0
    return (← pulled mem p 3) + (← pulled mem p 2) + (← pulled mem p 1) + (← pulled mem p 0)
  else
    let some p ← pull 8 | return 0
    return (← pulled mem p 7) + (← pulled mem p 6) + (← pulled mem p 5) + (← pulled mem p 4)
      + (← pulled mem p 3) + (← pulled mem p 2) + (← pulled mem p 1) + (← pulled mem p 0)

/-- The loop that reads the counts. -/
def pullNums (A : Allocator) :
    List ℕ → List U64 → TxbitsSet → Stateful Fault Pointer (List U64 × TxbitsSet)
  | [], nums, bset => return (nums, bset)
  | i :: is, nums, bset => do
    let n ← pullVarint mem
    if nums.length ≤ i then throw .outOfRange
    else if A n.toNat 8 = false then throw .lengthError
    else
      let bset ← liftExcept (bset.assign i UnorderedSet.empty)
      pullNums A is (nums.set i n) bset

end Varints

end Pointer

namespace BitPointer

/-- `bitoff = 0` -/
def start (s : Pointer) : BitPointer := ⟨s, 0, Nat.zero_le 7, fun _ => rfl⟩

/-- On to the next byte, or NULL when the byte before it was past the end already. -/
def nextByte (s : Pointer) : BitPointer :=
  start (if s.len = 0 then { s with p := none } else s.advance 1)

/-- A pointer that is not NULL may have bits of its byte behind it. -/
theorem aligned_of_some {p : Option ℕ} {o n : ℕ} (h : p = some o) (e : p = none) : n = 0 :=
  absurd (h.symm.trans e) (Option.some_ne_none o)

variable (mem : ℕ → U8)

/-- `**p & (1 << *bitoff)`, and `if (++(*bitoff) == 8)` the next byte. -/
def pullBit (s : BitPointer) : Bool × BitPointer :=
  match hp : s.p with
  | none => (false, s)
  | some p =>
    let b := (mem p).getLsbD s.bitoff
    if h : s.bitoff + 1 = 8 then (b, nextByte (s.log p))
    else
      (b, ⟨s.log p, s.bitoff + 1,
        Nat.le_of_lt_succ (Nat.lt_of_le_of_ne (Nat.succ_le_succ s.le) h), aligned_of_some hp⟩)

/-- The loop that reads one string of `n` bits. -/
def pullString : ℕ → BitPointer → List Bool × BitPointer
  | 0, s => ([], s)
  | n + 1, s =>
    let (b, s) := pullBit mem s
    let (v, s) := pullString n s
    (b :: v, s)

/-- The loop that reads `n` strings of length `i`; `false` when it returns `false`. -/
def pullStrings (i : ℕ) : ℕ → TxbitsSet → Stateful Fault BitPointer (Bool × TxbitsSet)
  | 0, bset => return (true, bset)
  | n + 1, bset => do
    let v ← modifyGet (pullString mem i)
    let s ← liftExcept (bset.entry i)
    let bset ← liftExcept (bset.assign i (s.insert v))
    if (← get).p = none then return (false, bset)
    else pullStrings i n bset

/-- The loop over the lengths `i`, for `nums[i]` strings of each. -/
def pullLengths (nums : List U64) :
    List ℕ → TxbitsSet → Stateful Fault BitPointer (Bool × TxbitsSet)
  | [], bset => return (true, bset)
  | i :: is, bset =>
    match nums[i]? with
    | none => throw .outOfRange
    | some n => do
      let (go, bset) ← pullStrings mem i n.toNat bset
      if go then pullLengths nums is bset else return (false, bset)

/-- Inside a byte, every bit brings its end closer. -/
theorem pullBit_closer {s : BitPointer} (h : s.bitoff ≠ 0) :
    (8 - (pullBit mem s).2.bitoff) % 8 < (8 - s.bitoff) % 8 := by
  obtain ⟨⟨p, len, derefs⟩, bitoff, le, aligned⟩ := s
  cases p with
  | none => exact absurd (aligned rfl) h
  | some p =>
    simp only at h
    unfold pullBit
    by_cases h₈ : bitoff + 1 = 8
    · simp only [dif_pos h₈, nextByte, start]
      omega
    · simp only [dif_neg h₈]
      omega

/-- The last loop: the rest of the byte must be zero. -/
def skipPadding (s : BitPointer) : Bool × BitPointer :=
  if _h : s.bitoff = 0 then (true, s)
  else if (pullBit mem s).1 then (false, (pullBit mem s).2)
  else skipPadding (pullBit mem s).2
termination_by (8 - s.bitoff) % 8
decreasing_by exact pullBit_closer mem _h

/-- The strings and the padding: what `decode_bitset` returns, and `bset`. -/
def decodeStrings (nums : List U64) (lengths : List ℕ) (bset : TxbitsSet) :
    Stateful Fault BitPointer (Bool × TxbitsSet) := do
  let (go, bset) ← pullLengths mem nums lengths bset
  if go then
    let zero ← modifyGet (skipPadding mem)
    return (zero && (← get).p.isSome, bset)
  else return (false, bset)

end BitPointer

namespace Pointer

/-- A part of the function in which `bitoff`, which starts at 0, is in scope. -/
def withBitoff {α : Type} (x : Stateful Fault BitPointer α) : Stateful Fault Pointer α :=
  ExceptT.mk fun s => ((x.from (BitPointer.start s)).1, (x.from (BitPointer.start s)).2.toPointer)

/-- `decode_bitset`: what it returns, and `bset`. -/
def decodeBitset (A : Allocator) (mem : ℕ → U8) (bset : TxbitsSet) :
    Stateful Fault Pointer (Bool × TxbitsSet) := do
  let min ← pullVarint mem
  let num ← pullVarint mem
  if 49 < num.toNat then
    return (false, bset)
  else if A (min + num).toNat 8 = false then
    throw .lengthError
  else
    let (nums, bset) ← pullNums mem A (lengthRange min num)
      (List.replicate (min + num).toNat 0) TxbitsSet.empty
    if (← get).p = none then return (false, bset)
    else withBitoff (BitPointer.decodeStrings mem nums (lengthRange min num) bset)

/-- The offsets that `decode_bitset(&p, &len, bset)` dereferences when `p` is where `mem` starts. -/
def decodeBitsetDerefs (A : Allocator) (mem : ℕ → U8) (len : ℕ) (bset : TxbitsSet) : List ℕ :=
  ((decodeBitset A mem bset).from ⟨some 0, len, []⟩).2.derefs

end Pointer

/-! ## Pointers and lists of unread bytes -/

/-- The `n` bytes from offset `o` on. -/
def bytesFrom (mem : ℕ → U8) (o n : ℕ) : List U8 := (List.range' o n).map mem

section Bytes

variable (mem : ℕ → U8) (o n : ℕ)

@[simp] theorem length_bytesFrom : (bytesFrom mem o n).length = n := by simp [bytesFrom]

theorem take_bytesFrom {k : ℕ} (h : k ≤ n) : (bytesFrom mem o n).take k = bytesFrom mem o k := by
  rw [bytesFrom, ← List.map_take, List.take_range'_of_length_ge h, bytesFrom]

theorem drop_bytesFrom (k : ℕ) :
    (bytesFrom mem o n).drop k = bytesFrom mem (o + k) (n - k) := by
  rw [bytesFrom, ← List.map_drop, List.drop_range', Nat.mul_one, bytesFrom]

end Bytes

/-- In a buffer of `len` bytes, the pointer stands for the list `c` of unread bytes, and `overread`
says whether an offset past the end has been dereferenced. -/
structure Pointer.Represents (mem : ℕ → U8) (len : ℕ) (s : Pointer) (c : Cursor U8)
    (overread : Bool) : Prop where
  cursor : c = s.p.map fun o => bytesFrom mem o s.len
  inBuffer : ∀ o, s.p = some o → o + s.len = len
  null : s.p = none → s.len = 0
  overread : overread = s.derefs.any (len ≤ ·)
  /-- at most the one byte past the end -/
  le : ∀ o ∈ s.derefs, o ≤ len

namespace Pointer

variable {mem : ℕ → U8} {len : ℕ} {s : Pointer} {c : Cursor U8}

/-- Nothing past the end has been dereferenced. -/
def Inside (len : ℕ) (s : Pointer) : Prop := ∀ o ∈ s.derefs, o < len

theorem Represents.inside_iff {overread : Bool} (h : s.Represents mem len c overread) :
    s.Inside len ↔ overread = false := by
  rw [h.overread, List.any_eq_false, Inside]
  simp only [decide_eq_true_iff, not_le]

/-- A dereference inside the buffer. -/
theorem Represents.log (h : s.Represents mem len c false) {o : ℕ} (ho : o < len) :
    (s.log o).Represents mem len c false where
  cursor := h.cursor
  inBuffer := h.inBuffer
  null := h.null
  overread := by
    have hover := h.overread
    simp only [Pointer.log, List.any_cons, ← hover]
    simp [ho]
  le := List.forall_mem_cons.mpr ⟨ho.le, h.le⟩

/-- A NULL pointer. -/
theorem represents_null {derefs : List ℕ} (h : false = derefs.any (len ≤ ·))
    (hle : ∀ o ∈ derefs, o ≤ len) : (Pointer.mk none 0 derefs).Represents mem len none false := by
  refine ⟨rfl, ?_, fun _ => rfl, h, hle⟩
  rintro - ⟨⟩

theorem pull_lockstep (h : s.Represents mem len c false) {n : ℕ} (hn : 0 < n) :
    EndsAs (fun p r t => t.Represents mem len r.2 false ∧
        r.1 = p.map (fun o => ⟨bytesFrom mem o n, length_bytesFrom mem o n⟩) ∧
        ∀ o, p = some o → o + n ≤ len)
      (Inside len) (pull n) s (BitcoinIblt.pull n c) := by
  obtain ⟨p, l, derefs⟩ := s
  obtain ⟨rfl, hin, hnull, hover, hle⟩ := h
  simp only at hin hnull hover hle
  by_cases hlt : l < n
  · have hpull : BitcoinIblt.pull n (p.map fun o => bytesFrom mem o l) = .ok (none, none) := by
      cases p with
      | none => rfl
      | some o => exact pull_short (by simpa using hlt)
    rw [hpull]
    refine EndsAs.modifyGet ?_
    simp only [if_pos hlt]
    refine ⟨represents_null hover hle, rfl, ?_⟩
    rintro - ⟨⟩
  · cases p with
    | none =>
      have := hnull rfl
      omega
    | some o =>
      have hlen := hin o rfl
      have hpull : BitcoinIblt.pull n (some (bytesFrom mem o l)) =
          .ok (some ⟨bytesFrom mem o n, length_bytesFrom mem o n⟩,
            some (bytesFrom mem (o + n) (l - n))) := by
        simp only [BitcoinIblt.pull, length_bytesFrom, dif_neg hlt, drop_bytesFrom,
          take_bytesFrom mem o l (Nat.not_lt.mp hlt)]
      rw [Option.map_some, hpull]
      refine EndsAs.modifyGet ?_
      simp only [if_neg hlt]
      refine ⟨⟨rfl, ?_, ?_, hover, hle⟩, rfl, ?_⟩
      · rintro - ⟨⟩
        simp only [advance]
        omega
      · rintro ⟨⟩
      · intro o' ho'
        obtain rfl : o = o' := Option.some.inj ho'
        omega

/-- Dereferences inside the buffer. -/
theorem Represents.logs (h : s.Represents mem len c false) {l : List ℕ} (hl : ∀ o ∈ l, o < len) :
    (l.foldr Pointer.log s).Represents mem len c false := by
  induction l with
  | nil => exact h
  | cons o l ih =>
    exact (ih fun o' ho' => hl o' (List.mem_cons_of_mem o ho')).log (hl o List.mem_cons_self)

/-- A `pull` whose caller dereferences only the bytes pulled. -/
theorem pullDecode_lockstep (h : s.Represents mem len c false) {n : ℕ} (hn : 0 < n)
    {dec : List U8 → U64} {x : ℕ → Stateful Fault Pointer U64}
    (hx : ∀ p t, ∃ l : List ℕ, (x p).from t = (.ok (dec (bytesFrom mem p n)), l.foldr log t) ∧
      ∀ o ∈ l, o < p + n) :
    EndsAs (fun v r t => v = r.1 ∧ t.Represents mem len r.2 false) (Inside len)
      (do
        let some p ← pull n | return 0
        x p) s (pullDecode n 0 dec c) := by
  refine EndsAs.bind (pull_lockstep h hn) ?_
  rintro p ⟨-, c'⟩ t ⟨ht, rfl, hle⟩
  cases p with
  | none => exact EndsAs.pure ⟨rfl, ht⟩
  | some p =>
    obtain ⟨l, hl, hin⟩ := hx p t
    exact Or.inl ⟨_, _, _, hl, rfl, rfl, ht.logs fun o ho => (hin o ho).trans_le (hle p rfl)⟩

theorem pullVarint_lockstep (h : s.Represents mem len c false) :
    EndsAs (fun v r t => v = r.1 ∧ t.Represents mem len r.2 false) (Inside len)
      (pullVarint mem) s (BitcoinIblt.pullVarint c) := by
  refine EndsAs.bind (pull_lockstep h Nat.one_pos) ?_
  rintro p ⟨-, c'⟩ t ⟨ht, rfl, hle⟩
  cases p with
  | none => exact EndsAs.pure ⟨rfl, ht⟩
  | some p =>
    have ht' : (t.log p).Represents mem len c' false := ht.log (hle p rfl)
    refine EndsAs.stutter (t := t.log p) (a := mem p) rfl ?_
    show EndsAs _ _ _ _ (pullVarintRest (mem p) c')
    rw [pullVarintRest]
    split_ifs
    · exact EndsAs.pure ⟨rfl, ht'⟩
    · exact pullDecode_lockstep ht' (by decide) fun p t => ⟨[p + 0, p + 1], rfl, by simp⟩
    · exact pullDecode_lockstep ht' (by decide) fun p t =>
        ⟨[p + 0, p + 1, p + 2, p + 3], rfl, by simp⟩
    · exact pullDecode_lockstep ht' (by decide) fun p t =>
        ⟨[p + 0, p + 1, p + 2, p + 3, p + 4, p + 5, p + 6, p + 7], rfl, by simp⟩

theorem pullNums_lockstep (A : Allocator) (is : List ℕ) (nums : List U64) (bset : TxbitsSet)
    (h : s.Represents mem len c false) :
    EndsAs (fun r q t => r = (q.1, q.2.1) ∧ t.Represents mem len q.2.2 false) (Inside len)
      (pullNums mem A is nums bset) s (BitcoinIblt.pullNums A is nums bset c) := by
  induction is generalizing nums bset s c with
  | nil => exact EndsAs.pure ⟨rfl, h⟩
  | cons i is ih =>
    refine EndsAs.bind (pullVarint_lockstep h) ?_
    rintro n ⟨_, c'⟩ t ⟨rfl, ht⟩
    by_cases h₁ : nums.length ≤ i
    · simp only [if_pos h₁]
      exact EndsAs.throw (ht.inside_iff.mpr rfl)
    · by_cases h₂ : A n.toNat 8 = false
      · simp only [if_neg h₁, if_pos h₂]
        exact EndsAs.throw (ht.inside_iff.mpr rfl)
      · simp only [if_neg h₁, if_neg h₂]
        refine EndsAs.bind (EndsAs.shared (ht.inside_iff.mpr rfl)) ?_
        rintro bset' _ t' ⟨rfl, rfl⟩
        exact ih _ _ ht

end Pointer

namespace BitPointer

/-- The pointer stands for the cursor of the reader of a list. -/
structure Represents (mem : ℕ → U8) (len : ℕ) (s : BitPointer) (c : BitCursor) : Prop where
  pointer : s.toPointer.Represents mem len c.cursor c.overread
  bitoff : s.bitoff = c.bitoff.val

variable {mem : ℕ → U8} {len : ℕ} {s : BitPointer} {c : BitCursor} {E : BitPointer → Prop}

/-- A cursor is NULL when the pointer is. -/
theorem Represents.null_iff (h : s.Represents mem len c) : s.p = none ↔ c.cursor = none := by
  rw [h.pointer.cursor, Option.map_eq_none_iff]

/-- The byte past the end of the buffer is what the reader of a list finds after the last byte. -/
theorem pullBit_represents (h : s.Represents mem len c) :
    (pullBit mem s).1 = (BitcoinIblt.pullBit (mem len) c).1 ∧
      (pullBit mem s).2.Represents mem len (BitcoinIblt.pullBit (mem len) c).2 := by
  obtain ⟨⟨p, l, derefs⟩, bitoff, le, aligned⟩ := s
  obtain ⟨cursor, bitoff', overread, aligned'⟩ := c
  obtain ⟨⟨hcursor, hin, hnull, hover, hle⟩, hoff⟩ := h
  simp only at hcursor hin hnull hover hle hoff
  subst hcursor hover hoff
  cases p with
  | none => exact ⟨rfl, ⟨rfl, hin, hnull, rfl, hle⟩, rfl⟩
  | some o =>
    have hlen : o + l = len := hin o rfl
    have hhead : (bytesFrom mem o l).headD (mem len) = mem o := by
      cases l with
      | zero => rw [← hlen]; rfl
      | succ l => rfl
    have hempty : (bytesFrom mem o l).isEmpty = decide (len ≤ o) := by
      cases l with
      | zero => simp [bytesFrom, ← hlen]
      | succ l => simp [bytesFrom, ← hlen]
    have hover : (derefs.any (len ≤ ·) || (bytesFrom mem o l).isEmpty) =
        (o :: derefs).any (len ≤ ·) := by
      rw [hempty, List.any_cons, Bool.or_comm]
    have hle' : ∀ o' ∈ o :: derefs, o' ≤ len :=
      List.forall_mem_cons.mpr ⟨by omega, hle⟩
    by_cases h₇ : bitoff' = 7
    · have h₈ : bitoff'.val + 1 = 8 := by rw [h₇]; rfl
      simp only [Option.map_some, pullBit, BitcoinIblt.pullBit, hhead, if_pos h₇, dif_pos h₈, hover]
      refine ⟨trivial, ?_, rfl⟩
      cases l with
      | zero =>
        refine ⟨rfl, ?_, fun _ => rfl, rfl, hle'⟩
        rintro - ⟨⟩
      | succ l =>
        refine ⟨rfl, ?_, ?_, rfl, hle'⟩
        · rintro - ⟨⟩
          show o + 1 + (l + 1 - 1) = len
          omega
        · rintro ⟨⟩
    · have hne : bitoff'.val ≠ 7 := fun e => h₇ (Fin.ext e)
      have h₈ : ¬ bitoff'.val + 1 = 8 := by omega
      simp only [Option.map_some, pullBit, BitcoinIblt.pullBit, hhead, if_neg h₇, dif_neg h₈, hover]
      refine ⟨trivial, ⟨rfl, hin, hnull, rfl, hle'⟩, ?_⟩
      show bitoff'.val + 1 = (bitoff' + 1).val
      rw [Fin.val_add, Fin.val_one, Nat.mod_eq_of_lt (by omega)]

theorem pullString_represents (n : ℕ) (h : s.Represents mem len c) :
    (pullString mem n s).1 = (BitcoinIblt.pullString (mem len) n c).1 ∧
      (pullString mem n s).2.Represents mem len (BitcoinIblt.pullString (mem len) n c).2 := by
  induction n generalizing s c with
  | zero => exact ⟨rfl, h⟩
  | succ n ih =>
    obtain ⟨hb, h'⟩ := pullBit_represents h
    obtain ⟨hv, h''⟩ := ih h'
    exact ⟨congrArg₂ List.cons hb hv, h''⟩

theorem Represents.bitoff_iff (h : s.Represents mem len c) : s.bitoff = 0 ↔ c.bitoff = 0 := by
  rw [h.bitoff, Fin.ext_iff]
  rfl

theorem skipPadding_represents (h : s.Represents mem len c) :
    (skipPadding mem s).1 = (BitcoinIblt.skipPadding (mem len) c).1 ∧
      (skipPadding mem s).2.Represents mem len (BitcoinIblt.skipPadding (mem len) c).2 := by
  induction s using skipPadding.induct mem generalizing c with
  | case1 s hoff =>
    rw [skipPadding, BitcoinIblt.skipPadding, dif_pos hoff, dif_pos (h.bitoff_iff.mp hoff)]
    exact ⟨rfl, h⟩
  | case2 s hoff hb =>
    obtain ⟨hb', h'⟩ := pullBit_represents h
    rw [skipPadding, BitcoinIblt.skipPadding, dif_neg hoff,
      dif_neg (mt h.bitoff_iff.mpr hoff), if_pos hb, if_pos (hb' ▸ hb)]
    exact ⟨rfl, h'⟩
  | case3 s hoff hb ih =>
    obtain ⟨hb', h'⟩ := pullBit_represents h
    rw [skipPadding, BitcoinIblt.skipPadding, dif_neg hoff,
      dif_neg (mt h.bitoff_iff.mpr hoff), if_neg hb, if_neg (hb' ▸ hb)]
    exact ih h'

theorem pullStrings_lockstep {i : ℕ} (hi : i < 49) (n : ℕ) (bset : TxbitsSet)
    (h : s.Represents mem len c) :
    EndsAs (fun r q t => r = (q.1, q.2.1) ∧ t.Represents mem len q.2.2) E
      (pullStrings mem i n bset) s (BitcoinIblt.pullStrings (mem len) i n bset c) := by
  induction n generalizing s c bset with
  | zero => exact EndsAs.pure ⟨rfl, h⟩
  | succ n ih =>
    obtain ⟨hv, h'⟩ := pullString_represents i h
    rw [pullStrings, BitcoinIblt.pullStrings]
    simp only [TxbitsSet.entry_ok hi, TxbitsSet.assign_ok hi, ok_bind, ← hv]
    refine EndsAs.stutter (t := (pullString mem i s).2) rfl ?_
    refine EndsAs.stutter (t := (pullString mem i s).2) rfl ?_
    refine EndsAs.stutter (t := (pullString mem i s).2) rfl ?_
    refine EndsAs.stutter (t := (pullString mem i s).2) rfl ?_
    simp only [h'.null_iff]
    split_ifs
    · exact EndsAs.pure ⟨rfl, h'⟩
    · exact ih _ h'

theorem pullLengths_lockstep {nums : List U64} {is : List ℕ}
    (his : ∀ i ∈ is, i < 49 ∧ i < nums.length) (bset : TxbitsSet) (h : s.Represents mem len c) :
    EndsAs (fun r q t => r = (q.1, q.2.1) ∧ t.Represents mem len q.2.2) E
      (pullLengths mem nums is bset) s (BitcoinIblt.pullLengths (mem len) nums is bset c) := by
  induction is generalizing s c bset with
  | nil => exact EndsAs.pure ⟨rfl, h⟩
  | cons i is ih =>
    obtain ⟨h₁, h₂⟩ := his i List.mem_cons_self
    rw [pullLengths, BitcoinIblt.pullLengths, List.getElem?_eq_getElem h₂]
    refine EndsAs.bind (pullStrings_lockstep h₁ _ bset h) ?_
    rintro - ⟨go, bset', c'⟩ t ⟨rfl, ht⟩
    cases go with
    | false => exact EndsAs.pure ⟨rfl, ht⟩
    | true => exact ih (fun j hj => his j (List.mem_cons_of_mem i hj)) bset' ht

theorem decodeStrings_lockstep {nums : List U64} {is : List ℕ}
    (his : ∀ i ∈ is, i < 49 ∧ i < nums.length) (bset : TxbitsSet) {p : List U8}
    (h : s.Represents mem len ⟨some p, 0, false, fun _ => rfl⟩) :
    EndsAs (fun r q t => r = (q.result, q.bset) ∧
        t.toPointer.Represents mem len q.cursor q.overread) E
      (decodeStrings mem nums is bset) s (BitcoinIblt.decodeStrings (mem len) nums is bset p) := by
  refine EndsAs.bind (pullLengths_lockstep his bset h) ?_
  rintro - ⟨go, bset', c'⟩ t ⟨rfl, ht⟩
  cases go with
  | false => exact EndsAs.pure ⟨rfl, ht.pointer⟩
  | true =>
    obtain ⟨hz, ht'⟩ := skipPadding_represents ht
    refine EndsAs.stutter (t := (skipPadding mem t).2) rfl ?_
    refine EndsAs.stutter (t := (skipPadding mem t).2) rfl ?_
    refine EndsAs.pure ⟨?_, ht'.pointer⟩
    rw [hz, ht'.pointer.cursor, Option.isSome_map]

end BitPointer

/-- Counts that have been read are those of lengths in range. -/
theorem range_of_pullNums_ok {A : Allocator} {is : List ℕ} {nums nums' : List U64}
    {bset bset' : TxbitsSet} {p p' : Cursor U8} (his : ∀ i ∈ is, i < nums.length)
    (h : pullNums A is nums bset p = .ok (nums', bset', p')) :
    ∀ i ∈ is, i < 49 ∧ i < nums'.length := by
  have h₄₉ : ∀ i ∈ is, i < 49 := fun i hi =>
    Nat.lt_of_not_le fun hle => pullNums_out_of_range A ⟨i, hi, hle⟩ nums bset p _ h
  intro i hi
  rcases pullNums_in_range A (fun i hi => ⟨h₄₉ i hi, his i hi⟩) bset p with he | ⟨n, b, q, hr, hlen⟩
  · rw [he] at h
    cases h
  · rw [hr] at h
    cases h
    exact ⟨h₄₉ i hi, hlen ▸ his i hi⟩

namespace Pointer

variable {mem : ℕ → U8} {len : ℕ} {s : Pointer} {c : Cursor U8}

theorem withBitoff_lockstep {α β : Type} {R : α → β → BitPointer → Prop}
    {R' : α → β → Pointer → Prop} {E : Pointer → Prop} {x : Stateful Fault BitPointer α} {y : Run β}
    (h : EndsAs R (fun t => E t.toPointer) x (BitPointer.start s) y)
    (hR : ∀ a b t, R a b t → R' a b t.toPointer) : EndsAs R' E (withBitoff x) s y := by
  rcases h with ⟨a, b, t, hx, hy, h⟩ | ⟨e, t, hx, hy, h⟩
  · refine Or.inl ⟨a, b, t.toPointer, ?_, hy, hR a b t h⟩
    show ((x.from _).1, _) = _
    rw [hx]
  · refine Or.inr ⟨e, t.toPointer, ?_, hy, h⟩
    show ((x.from _).1, _) = _
    rw [hx]

/-- **The two models of `decode_bitset`.** On a buffer of `len` bytes the function on pointers
returns what the function on lists returns, which finds `mem len` past the end; `overread` tells
whether an offset past the end was dereferenced. If it stops with a fault, none was. -/
theorem decodeBitset_lockstep (A : Allocator) (bset : TxbitsSet)
    (h : s.Represents mem len c false) :
    EndsAs (fun r q t => r = (q.result, q.bset) ∧ t.Represents mem len q.cursor q.overread)
      (Inside len) (decodeBitset A mem bset) s
      (BitcoinIblt.decodeBitset A (mem len) c bset) := by
  refine EndsAs.bind (pullVarint_lockstep h) ?_
  rintro min ⟨_, c₁⟩ s₁ ⟨rfl, h₁⟩
  refine EndsAs.bind (pullVarint_lockstep h₁) ?_
  rintro num ⟨_, c₂⟩ s₂ ⟨rfl, h₂⟩
  by_cases hnum : 49 < num.toNat
  · simp only [if_pos hnum]
    exact EndsAs.pure ⟨rfl, h₂⟩
  · by_cases hA : A (min + num).toNat 8 = false
    · simp only [if_neg hnum, if_pos hA]
      exact EndsAs.throw (h₂.inside_iff.mpr rfl)
    · simp only [if_neg hnum, if_neg hA]
      refine EndsAs.bind (pullNums_lockstep A _ _ TxbitsSet.empty h₂).returned ?_
      rintro - ⟨nums, bset', c₃⟩ s₃ ⟨hnums, rfl, h₃⟩
      refine EndsAs.stutter (t := s₃) rfl ?_
      cases c₃ with
      | none =>
        have hp : s₃.p = none := Option.map_eq_none_iff.mp h₃.cursor.symm
        simp only [if_pos hp]
        exact EndsAs.pure ⟨rfl, h₃⟩
      | some p =>
        have hp : s₃.p ≠ none := fun e => by
          have hcursor := h₃.cursor
          rw [e] at hcursor
          cases hcursor
        simp only [if_neg hp]
        refine withBitoff_lockstep (BitPointer.decodeStrings_lockstep
          (range_of_pullNums_ok (fun i hi => ?_) hnums) bset' ⟨h₃, rfl⟩) fun a b t h => h
        rw [List.length_replicate]
        exact (mem_lengthRange.mp hi).2

end Pointer

/-! ## How many bits the strings take -/

/-- The reader of `q` has been asked for `k` bits. It got as far, or ran short before that. -/
structure Asked (q : List U8) (k : ℕ) (c : BitCursor) : Prop where
  at_or_short : At q k c ∨ c.cursor = none ∧ 8 * q.length < k
  overread : c.overread = decide (8 * q.length < k)

section Asked

variable {q : List U8} {k : ℕ} {c : BitCursor} (past : U8)

/-- A bit that starts past the end is an overread. -/
theorem At.overread (h : At q k c) :
    (pullBit past c).2.overread = (c.overread || decide (q.length ≤ k / 8)) := by
  have hempty : (q.drop (k / 8)).isEmpty = decide (q.length ≤ k / 8) := by
    rw [Bool.eq_iff_iff, List.isEmpty_iff, List.drop_eq_nil_iff, decide_eq_true_iff]
  rw [pullBit, h.cursor]
  simp only [hempty]
  split_ifs <;> rfl

theorem Asked.bit (h : Asked q k c) : Asked q (k + 1) (pullBit past c).2 := by
  obtain ⟨hat | ⟨hnull, hlt⟩, hover⟩ := h
  · refine ⟨?_, ?_⟩
    · by_cases hle : (k + 1) / 8 ≤ q.length
      · exact Or.inl ((hat.next past).1 hle)
      · exact Or.inr ⟨(hat.next past).2 (by omega), by omega⟩
    · rw [hat.overread, hover, Bool.eq_iff_iff]
      simp only [Bool.or_eq_true, decide_eq_true_iff]
      have hle := hat.le
      omega
  · rw [pullBit_none past hnull]
    refine ⟨Or.inr ⟨hnull, by omega⟩, ?_⟩
    rw [hover, decide_eq_true hlt, decide_eq_true (by omega)]

theorem Asked.string (h : Asked q k c) (n : ℕ) : Asked q (k + n) (pullString past n c).2 := by
  induction n generalizing k c with
  | zero => exact h
  | succ n ih =>
    rw [pullString_succ, show k + (n + 1) = k + 1 + n by omega]
    exact ih (h.bit past)

/-- A reader that ran short has been asked for bits past the end. -/
theorem Asked.lt_of_null (h : Asked q k c) (hnull : c.cursor = none) : 8 * q.length < k := by
  rcases h.at_or_short with hat | ⟨-, hlt⟩
  · rw [hat.cursor] at hnull
    cases hnull
  · exact hlt

/-- What a loop leaves that was to read up to bit `k`: it read so far, or stopped past the end. -/
def ReadUpTo (q : List U8) (k : ℕ) (go : Bool) (c : BitCursor) : Prop :=
  (go = true ∧ Asked q k c) ∨ (go = false ∧ c.overread = true ∧ 8 * q.length < k)

theorem Asked.strings {i : ℕ} (hi : i < 49) (n : ℕ) (h : Asked q k c) (bset : TxbitsSet) :
    ∃ go bset' c', pullStrings past i n bset c = .ok (go, bset', c') ∧
      ReadUpTo q (k + i * n) go c' := by
  induction n generalizing k c bset with
  | zero => exact ⟨true, bset, c, rfl, Or.inl ⟨rfl, h⟩⟩
  | succ n ih =>
    have h' := h.string past i
    have hmul : k + i * (n + 1) = k + i + i * n := by ring
    rw [pullStrings_succ past hi, hmul]
    split_ifs with hnull
    · have hlt := h'.lt_of_null hnull
      exact ⟨_, _, _, rfl, Or.inr ⟨rfl, h'.overread.trans (decide_eq_true hlt), by omega⟩⟩
    · exact ih h' _

/-- `i * nums[i]` bits for each length from `i` on. -/
def declaredBits : ℕ → List U64 → ℕ
  | _, [] => 0
  | i, n :: ns => i * n.toNat + declaredBits (i + 1) ns

theorem Asked.lengths {nums counts : List U64} {m : ℕ} (hm : m + counts.length ≤ 49)
    (hnums : ∀ j (hj : j < counts.length), nums[m + j]? = some counts[j]) (h : Asked q k c)
    (bset : TxbitsSet) :
    ∃ go bset' c', pullLengths past nums (List.range' m counts.length) bset c =
      .ok (go, bset', c') ∧ ReadUpTo q (k + declaredBits m counts) go c' := by
  induction counts generalizing m k c bset with
  | nil => exact ⟨true, bset, c, rfl, Or.inl ⟨rfl, h⟩⟩
  | cons n ns ih =>
    rw [List.length_cons] at hm
    obtain ⟨go, bset₁, c₁, hr₁, hread⟩ := h.strings past (i := m) (by omega) n.toNat bset
    have hget : nums[m]? = some n := hnums 0 (Nat.succ_pos _)
    rw [List.length_cons, List.range'_succ, pullLengths, hget, declaredBits, ← Nat.add_assoc]
    simp only [hr₁, ok_bind]
    rcases hread with ⟨rfl, hasked⟩ | ⟨rfl, hover, hlt⟩
    · refine ih (by omega) (fun j hj => ?_) hasked bset₁
      have := hnums (j + 1) (Nat.succ_lt_succ hj)
      rwa [show m + (j + 1) = m + 1 + j by omega] at this
    · exact ⟨false, bset₁, c₁, rfl, Or.inr ⟨rfl, hover, by omega⟩⟩

/-- In the middle of a byte the next bit is as far past the end as the last one. -/
theorem Asked.same_byte (h : Asked q k c) (hoff : c.bitoff ≠ 0) :
    8 * q.length < k + 1 ↔ 8 * q.length < k := by
  rcases h.at_or_short with hat | ⟨hnull, -⟩
  · have hne : k % 8 ≠ 0 := fun e => hoff (Fin.ext (hat.bitoff.trans e))
    omega
  · exact absurd (c.aligned hnull) hoff

/-- The padding is in a byte that has been read from. -/
theorem Asked.padding (h : Asked q k c) :
    (skipPadding past c).2.overread = decide (8 * q.length < k) := by
  induction c using skipPadding.induct past generalizing k with
  | case1 c hoff =>
    rw [skipPadding_aligned past hoff]
    exact h.overread
  | case2 c hoff hb =>
    rw [skipPadding, dif_neg hoff, if_pos hb, (h.bit past).overread]
    exact decide_eq_decide.mpr (h.same_byte hoff)
  | case3 c hoff hb ih =>
    rw [skipPadding, dif_neg hoff, if_neg hb, ih (h.bit past)]
    exact decide_eq_decide.mpr (h.same_byte hoff)

/-- `decode_bitset` reads past the end when the strings take more bits than there are. -/
theorem decodeStrings_overread {nums : List U64} (counts : List U64) {m : ℕ}
    (hm : m + counts.length ≤ 49)
    (hnums : ∀ j (hj : j < counts.length), nums[m + j]? = some counts[j]) (bset : TxbitsSet) :
    ∃ r, decodeStrings past nums (List.range' m counts.length) bset q = .ok r ∧
      r.overread = decide (8 * q.length < declaredBits m counts) := by
  have hstart : Asked q 0 ⟨some q, 0, false, fun _ => rfl⟩ :=
    ⟨Or.inl ⟨Nat.zero_le _, rfl, rfl⟩, rfl⟩
  obtain ⟨go, bset', c, hr, hread⟩ := hstart.lengths past hm hnums bset
  rw [Nat.zero_add] at hread
  simp only [decodeStrings, hr, ok_bind]
  rcases hread with ⟨rfl, hasked⟩ | ⟨rfl, hover, hlt⟩
  · exact ⟨_, rfl, hasked.padding past⟩
  · exact ⟨_, rfl, hover.trans (decide_eq_true hlt).symm⟩

end Asked

/-! ## The counts -/

/-- The counts that are read, and what follows them. -/
theorem pullNums_many {A : Allocator} {m n : ℕ} (h₄₉ : m + n ≤ 49) (nums : List U64)
    (hlen : m + n ≤ nums.length) (bset : TxbitsSet) (p : Cursor U8) :
    ∃ (counts : { l : List U64 // l.length = n }) (p' : Cursor U8),
      (many pullVarint n : Pull _) p = .ok (counts, p') ∧
      ((∀ v ∈ counts.1, A v.toNat 8 = true) → ∃ nums' bset',
        pullNums A (List.range' m n) nums bset p = .ok (nums', bset', p') ∧
          (∀ i < m, nums'[i]? = nums[i]?) ∧
          ∀ j (hj : j < counts.1.length), nums'[m + j]? = some counts.1[j]) ∧
      ((∃ v ∈ counts.1, A v.toNat 8 = false) →
        pullNums A (List.range' m n) nums bset p = .error .lengthError) := by
  induction n generalizing m nums bset p with
  | zero =>
    refine ⟨⟨[], rfl⟩, p, rfl, fun _ => ⟨nums, bset, rfl, fun i _ => rfl, ?_⟩, ?_⟩
    · exact fun j hj => absurd hj (Nat.not_lt_zero j)
    · rintro ⟨v, hv, -⟩
      cases hv
  | succ n ih =>
    obtain ⟨v, q, hv⟩ := pullVarint_returns p
    obtain ⟨counts, p', hmany, hok, herr⟩ := ih (m := m + 1) (by omega) (nums.set m v)
      (by rw [List.length_set]; omega) (bset.set m UnorderedSet.empty) q
    have hstep := pullNums_cons (A := A) (show m < 49 by omega) (show m < nums.length by omega) hv
      (List.range' (m + 1) n) bset
    rw [List.range'_succ]
    refine ⟨⟨v :: counts.1, by rw [List.length_cons, counts.2]⟩, p', ?_, ?_, ?_⟩
    · rw [many, bind_apply, hv]
      show (many pullVarint n >>= _ : Pull _) q = _
      rw [bind_apply, hmany]
      rfl
    · intro hall
      obtain ⟨hA, hall⟩ := List.forall_mem_cons.mp hall
      obtain ⟨nums', bset', hr, hbelow, hget⟩ := hok hall
      refine ⟨nums', bset', ?_, fun i hi => ?_, fun j hj => ?_⟩
      · rw [hstep, if_neg (by rw [hA]; decide), hr]
      · rw [hbelow i (by omega), List.getElem?_set_ne (by omega)]
      · cases j with
        | zero => rw [Nat.add_zero, hbelow m (by omega), List.getElem?_set_self (by omega)]; rfl
        | succ j =>
          have := hget j (Nat.lt_of_succ_lt_succ hj)
          rwa [show m + (j + 1) = m + 1 + j by omega]
    · intro hex
      rw [hstep]
      obtain ⟨w, hw, hA⟩ := hex
      rcases List.mem_cons.mp hw with rfl | hw
      · exact if_pos hA
      · rw [herr ⟨w, hw, hA⟩, ite_self]

/-- The header, the counts and what follows them, the bit area. -/
def bitsetCounts : Pull (U64 × U64 × List U64) := do
  let min ← pullVarint
  let num ← pullVarint
  let counts ← many pullVarint num.toNat
  return (min, num, counts.1)

/-- If `decode_bitset` gets as far as the strings, they fit in the bit area. -/
def BitsFit (A : Allocator) (bytes : List U8) : Prop :=
  ∀ min num counts area, bitsetCounts (some bytes) = .ok ((min, num, counts), some area) →
    min.toNat + num.toNat ≤ 49 → A (min + num).toNat 8 = true → (∀ n ∈ counts, A n.toNat 8 = true) →
      declaredBits min.toNat counts ≤ 8 * area.length

section Header

variable {A : Allocator} {past : U8} {bytes : List U8} {bset : TxbitsSet} {p₁ p₂ : Cursor U8}
  {min num : U64} (hmin : pullVarint (some bytes) = .ok (min, p₁))
  (hnum : pullVarint p₁ = .ok (num, p₂))

include hmin hnum

/-- With lengths out of range, the loop over the strings does nothing or is not reached. -/
theorem overread_out_of_range (hsum : 49 < min.toNat + num.toNat) {r : Decoded}
    (hr : decodeBitset A past (some bytes) bset = .ok r) : r.overread = false := by
  have hadd := BitVec.toNat_add min num
  have hlt := min.isLt
  rw [decodeBitset_eq A past bset hmin hnum] at hr
  by_cases h₄₉ : 49 < num.toNat
  · rw [if_pos h₄₉] at hr
    cases hr
    rfl
  · rw [if_neg h₄₉] at hr
    by_cases hA : A (min + num).toNat 8 = false
    · rw [if_pos hA] at hr
      cases hr
    · rw [if_neg hA] at hr
      obtain ⟨⟨nums, bset', p₃⟩, hp, hr⟩ := of_bind_ok hr
      have hrange := range_of_pullNums_ok (fun i hi => by
        rw [List.length_replicate]
        exact (mem_lengthRange.mp hi).2) hp
      have hnil : lengthRange min num = [] := List.eq_nil_iff_forall_not_mem.mpr fun i hi => by
        rw [mem_lengthRange] at hi
        have hlast := hrange ((min + num).toNat - 1) (mem_lengthRange.mpr (by omega))
        omega
      cases p₃ with
      | none =>
        cases hr
        rfl
      | some q =>
        obtain ⟨r', hr', hover⟩ := decodeStrings_overread (q := q) past [] (m := 0)
          (by decide) (fun j hj => absurd hj (Nat.not_lt_zero j)) bset'
        rw [hnil] at hr
        cases hr'.symm.trans hr
        rw [hover]
        rfl

theorem bitsetCounts_eq : bitsetCounts (some bytes) =
    (many pullVarint num.toNat : Pull _) p₂ >>= fun r => .ok ((min, num, r.1.1), r.2) := by
  rw [bitsetCounts, bind_apply, hmin]
  show (pullVarint >>= _ : Pull _) p₁ = _
  rw [bind_apply, hnum]
  rfl

/-- With lengths in range, what `decode_bitset` does depends on the counts. -/
theorem overread_in_range (hsum : min.toNat + num.toNat ≤ 49) :
    (∀ r, decodeBitset A past (some bytes) bset = .ok r → r.overread = false) ↔
      BitsFit A bytes := by
  have hadd : (min + num).toNat = min.toNat + num.toNat := by
    rw [BitVec.toNat_add, Nat.mod_eq_of_lt (by omega)]
  have hrange : lengthRange min num = List.range' min.toNat num.toNat := by
    rw [lengthRange, hadd, Nat.add_sub_cancel_left]
  obtain ⟨counts, p₃, hcounts, hok, herr⟩ := pullNums_many (A := A) hsum
    (List.replicate (min + num).toNat 0) (by rw [List.length_replicate, hadd])
    TxbitsSet.empty p₂
  have hread := bitsetCounts_eq hmin hnum
  rw [hcounts, ok_bind] at hread
  rw [BitsFit, hread, decodeBitset_eq A past bset hmin hnum,
    if_neg (show ¬ 49 < num.toNat by omega), hrange]
  -- a failed allocation ends the run before the strings
  by_cases hA : A (min + num).toNat 8 = true
  swap
  · rw [if_pos (Bool.eq_false_iff.mpr hA)]
    constructor
    · rintro - _ _ _ _ ⟨⟩ - hA'
      exact absurd hA' hA
    · rintro - _ ⟨⟩
  by_cases hall : ∀ n ∈ counts.1, A n.toNat 8 = true
  swap
  · rw [if_neg (by rw [hA]; decide), herr (by simpa using hall)]
    constructor
    · rintro - _ _ _ _ ⟨⟩ - - hall'
      exact absurd hall' hall
    · rintro - _ ⟨⟩
  obtain ⟨nums, bset', hr, -, hget⟩ := hok hall
  rw [if_neg (by rw [hA]; decide), hr, ok_bind]
  cases p₃ with
  | none =>
    constructor
    · rintro - _ _ _ _ ⟨⟩
    · rintro - _ ⟨⟩
      rfl
  | some area =>
    obtain ⟨r, hr', hover⟩ := decodeStrings_overread (q := area) past counts.1
      (by rw [counts.2]; exact hsum) hget bset'
    rw [counts.2] at hr'
    simp only [hr']
    constructor
    · rintro h _ _ _ _ ⟨⟩ - - -
      have := h r rfl
      rw [hover, decide_eq_false_iff_not] at this
      omega
    · rintro h _ ⟨⟩
      rw [hover, decide_eq_false_iff_not]
      have := h _ _ _ _ rfl hsum hA hall
      omega

/-- With lengths out of range, nothing is read past the end. -/
theorem bitsFit_out_of_range (hsum : 49 < min.toNat + num.toNat) : BitsFit A bytes := by
  intro _ _ _ _ h hle
  rw [bitsetCounts_eq hmin hnum] at h
  obtain ⟨⟨_, _⟩, -, h⟩ := of_bind_ok h
  cases h
  omega

end Header

theorem decodeBitset_overread_iff (A : Allocator) (past : U8) (bytes : List U8) (bset : TxbitsSet) :
    (∀ r, decodeBitset A past (some bytes) bset = .ok r → r.overread = false) ↔
      BitsFit A bytes := by
  obtain ⟨min, p₁, hmin⟩ := pullVarint_returns (some bytes)
  obtain ⟨num, p₂, hnum⟩ := pullVarint_returns p₁
  by_cases hsum : min.toNat + num.toNat ≤ 49
  · exact overread_in_range hmin hnum hsum
  · exact ⟨fun _ => bitsFit_out_of_range hmin hnum (Nat.lt_of_not_le hsum),
      fun _ r hr => overread_out_of_range hmin hnum (Nat.lt_of_not_le hsum) hr⟩

/-! ## The offsets -/

section Offsets

variable (A : Allocator) (mem : ℕ → U8) (len : ℕ) (bset : TxbitsSet)

/-- Before anything has been read. -/
theorem represents_start :
    (Pointer.mk (some 0) len []).Represents mem len (some (bytesFrom mem 0 len)) false := by
  refine ⟨rfl, ?_, ?_, rfl, ?_⟩
  · rintro - ⟨⟩
    exact Nat.zero_add len
  · rintro ⟨⟩
  · rintro o ⟨⟩

/-- Never more than the one byte past the end is dereferenced. -/
theorem decodeBitset_derefs_le : ∀ o ∈ Pointer.decodeBitsetDerefs A mem len bset, o ≤ len := by
  rw [Pointer.decodeBitsetDerefs]
  rcases Pointer.decodeBitset_lockstep A bset (represents_start mem len) with
    ⟨r, q, t, hx, -, -, ht⟩ | ⟨e, t, hx, -, ht⟩
  · rw [hx]
    exact ht.le
  · rw [hx]
    exact fun o ho => (ht o ho).le

/-- **What `decode_bitset` dereferences.** All of it lies inside the buffer exactly when the strings
that the header and the counts declare fit in the bytes after them. -/
theorem decodeBitset_derefs_iff :
    (∀ o ∈ Pointer.decodeBitsetDerefs A mem len bset, o < len) ↔
      BitsFit A (bytesFrom mem 0 len) := by
  rw [← decodeBitset_overread_iff A (mem len) _ bset, Pointer.decodeBitsetDerefs]
  rcases Pointer.decodeBitset_lockstep A bset (represents_start mem len) with
    ⟨r, q, t, hx, hq, -, ht⟩ | ⟨e, t, hx, hq, ht⟩
  · rw [hx, hq]
    refine ht.inside_iff.trans ⟨?_, fun h => h q rfl⟩
    rintro h _ ⟨⟩
    exact h
  · rw [hx, hq]
    refine ⟨?_, fun _ => ht⟩
    rintro - _ ⟨⟩

end Offsets

/-- One string of 8 bits is declared, and nothing follows: the byte after the buffer is read. -/
theorem decodeBitset_derefs_past_end :
    ¬ ∀ o ∈ Pointer.decodeBitsetDerefs (fun _ _ => true) (fun o => [8, 1, 1].getD o 0) 3
      TxbitsSet.empty, o < 3 := by
  decide

end BitcoinIblt
