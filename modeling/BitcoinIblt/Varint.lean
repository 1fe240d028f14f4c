import BitcoinIblt.Basic
import BitcoinIblt.Lib.LittleEndian
import BitcoinIblt.Lib.StickyParser

/-!
# Cursors, fixed-width words and varints

The `add_*` and `pull*` functions of `bitcoin_tx.cpp`. A writer is generic in its accumulator `add`
(`add_linearize`, `add_length`, `add_sha`, `add_slice`), and so in the monad the accumulator runs
in. A reader works on `Cursor`, the pair `*cursor`, `*max` of the source: the unread bytes, or NULL
with `*max = 0`.

`reads_varint`, `reads_le32` and `reads_le64` say that each reader undoes its writer and runs short
on every proper prefix of what it wrote.
-/

namespace BitcoinIblt

open LittleEndian StickyParser

abbrev Pull (α : Type) := Parser Fault U8 α

/-! ## Writers -/

section Writers

variable {m : Type → Type} {σ : Type}

/-- The bytes `add_varint` puts in `buf`. -/
def varintBytes (v : U64) : List U8 :=
  if v < 0xfd then
    [v.setWidth 8]
  else if v ≤ 0xffff then
    [0xfd, v.setWidth 8, (v >>> 8).setWidth 8]
  else if v ≤ 0xffffffff then
    [0xfe, v.setWidth 8, (v >>> 8).setWidth 8, (v >>> 16).setWidth 8, (v >>> 24).setWidth 8]
  else
    [0xff, v.setWidth 8, (v >>> 8).setWidth 8, (v >>> 16).setWidth 8, (v >>> 24).setWidth 8,
      (v >>> 32).setWidth 8, (v >>> 40).setWidth 8, (v >>> 48).setWidth 8, (v >>> 56).setWidth 8]

def addVarint (v : U64) (add : List U8 → σ → m σ) (addp : σ) : m σ := add (varintBytes v) addp

def le32Bytes (v : U32) : List U8 := toLE 4 v.toNat

def addLe32 (v : U32) (add : List U8 → σ → m σ) (addp : σ) : m σ := add (le32Bytes v) addp

def le64Bytes (v : U64) : List U8 := toLE 8 v.toNat

def addLe64 (v : U64) (add : List U8 → σ → m σ) (addp : σ) : m σ := add (le64Bytes v) addp

end Writers

/-- `varint_len` of `txslice.cpp`. -/
def varintLen (v : ℕ) : ℕ :=
  if v < 0xfd then 1
  else if v ≤ 0xffff then 3
  else if v ≤ 0xffffffff then 5
  else 9

/-! ## Readers -/

/-- `pull`: the next `n` bytes, or NULL (and a NULL cursor) when fewer are left. -/
def pull (n : ℕ) : Pull (Option (Bytes n)) := fun c =>
  match c with
  | none => .ok (none, none)
  | some bs =>
    if h : bs.length < n then .ok (none, none)
    else .ok (some ⟨bs.take n, by rw [List.length_take]; omega⟩, some (bs.drop n))

/-- `pull` with a destination: the bytes copied there, which are zeros when too few are left. -/
def pullCopy (n : ℕ) : Pull (Bytes n) := do
  return (← pull n).getD (zeroBytes n)

/-- A `pull` of `n` bytes whose caller returns `z` on NULL and else decodes the bytes. -/
def pullDecode {α : Type} (n : ℕ) (z : α) (dec : List U8 → α) : Pull α := do
  let some p ← pull n | return z
  return dec p.1

/-- Byte `i` of what `pull` returned, as a `u64` shifted by `8 * i`. -/
def pulled (p : List U8) (i : ℕ) : U64 := (p.getD i 0).setWidth 64 <<< (8 * i)

/-- What `pull_varint` does with the first byte `b`. -/
def pullVarintRest (b : U8) : Pull U64 :=
  if b < 0xfd then
    return b.setWidth 64
  else if b = 0xfd then
    pullDecode 2 0 fun p => pulled p 1 + pulled p 0
  else if b = 0xfe then
    pullDecode 4 0 fun p => pulled p 3 + pulled p 2 + pulled p 1 + pulled p 0
  else
    pullDecode 8 0 fun p => pulled p 7 + pulled p 6 + pulled p 5 + pulled p 4
      + pulled p 3 + pulled p 2 + pulled p 1 + pulled p 0

def pullVarint : Pull U64 := do
  let some p ← pull 1 | return 0
  pullVarintRest (p.1.getD 0 0)

def pullLe32 : Pull U32 := pullDecode 4 0 fun p => BitVec.ofNat 32 (ofLE p)

def pullLe64 : Pull U64 := pullDecode 8 0 fun p => BitVec.ofNat 64 (ofLE p)

/-! ## Running short -/

theorem pull_append {n : ℕ} (bs : Bytes n) (rest : List U8) :
    pull n (some (bs.1 ++ rest)) = .ok (some bs, some rest) := by
  obtain ⟨bs, rfl⟩ := bs
  simp [pull]

theorem pull_short {n : ℕ} {bs : List U8} (h : bs.length < n) :
    pull n (some bs) = .ok (none, none) := by
  simp [pull, h]

theorem length_lt_of_proper {n : ℕ} (bs : Bytes n) {pre : List U8} (h : pre <+: bs.1)
    (hne : pre ≠ bs.1) : pre.length < n :=
  bs.2 ▸ lt_of_le_of_ne h.length_le fun e => hne (h.eq_of_length e)

theorem reads_pull {n : ℕ} (bs : Bytes n) : Reads (pull n) (some bs) bs.1 where
  full rest := pull_append bs rest
  short _ hpre hne := ⟨none, pull_short (length_lt_of_proper bs hpre hne)⟩

theorem sticky_pullCopy (n : ℕ) : Sticky (pullCopy n) := ⟨zeroBytes n, rfl⟩

theorem reads_pullCopy {n : ℕ} (bs : Bytes n) : Reads (pullCopy n) bs bs.1 := by
  unfold pullCopy
  exact (reads_pull bs).bind_pure (f := fun p => p.getD (zeroBytes n))

theorem reads_pullDecode {α : Type} {n : ℕ} {bs : List U8} (h : bs.length = n) (z : α)
    {dec : List U8 → α} {a : α} (ha : dec bs = a) : Reads (pullDecode n z dec) a bs where
  full rest := by
    rw [pullDecode, bind_apply, pull_append ⟨bs, h⟩, ← ha]
    rfl
  short pre hpre hne := by
    have hlt := length_lt_of_proper ⟨bs, h⟩ hpre hne
    exact ⟨z, by rw [pullDecode, bind_apply, pull_short hlt]; rfl⟩

theorem sticky_pullLe32 : Sticky pullLe32 := ⟨0, rfl⟩

theorem sticky_pullLe64 : Sticky pullLe64 := ⟨0, rfl⟩

theorem sticky_pullVarint : Sticky pullVarint := ⟨0, rfl⟩

theorem pullVarint_nil : pullVarint (some []) = .ok (0, none) := rfl

theorem pullVarint_cons (b : U8) (rest : List U8) :
    pullVarint (some (b :: rest)) = pullVarintRest b (some rest) := by
  have h := pull_append (n := 1) ⟨[b], rfl⟩ rest
  rw [List.singleton_append] at h
  rw [pullVarint, bind_apply, h]
  rfl

/-! ## Readers return -/

theorem pull_returns (n : ℕ) (c : Cursor U8) : ∃ r, pull n c = .ok r := by
  cases c with
  | none => exact ⟨_, rfl⟩
  | some bs =>
    unfold pull
    simp only
    split_ifs
    · exact ⟨_, rfl⟩
    · exact ⟨_, rfl⟩

theorem pullCopy_returns (n : ℕ) (c : Cursor U8) : ∃ p c', pullCopy n c = .ok (p, c') := by
  obtain ⟨⟨p, c'⟩, h⟩ := pull_returns n c
  refine ⟨p.getD (zeroBytes n), c', ?_⟩
  rw [pullCopy, bind_apply, h]
  rfl

theorem pullDecode_returns {α : Type} (n : ℕ) (z : α) (dec : List U8 → α) (c : Cursor U8) :
    ∃ a c', pullDecode n z dec c = .ok (a, c') := by
  obtain ⟨⟨p, c'⟩, h⟩ := pull_returns n c
  rw [pullDecode, bind_apply, h]
  cases p <;> exact ⟨_, _, rfl⟩

theorem pullVarint_returns (c : Cursor U8) : ∃ v c', pullVarint c = .ok (v, c') := by
  cases c with
  | none => exact ⟨0, none, rfl⟩
  | some bs =>
    cases bs with
    | nil => exact ⟨0, none, pullVarint_nil⟩
    | cons b bs =>
      rw [pullVarint_cons, pullVarintRest]
      split_ifs
      · exact ⟨_, _, rfl⟩
      · exact pullDecode_returns _ _ _ _
      · exact pullDecode_returns _ _ _ _
      · exact pullDecode_returns _ _ _ _

theorem pullLe32_returns (c : Cursor U8) : ∃ v c', pullLe32 c = .ok (v, c') :=
  pullDecode_returns _ _ _ _

theorem pullLe64_returns (c : Cursor U8) : ∃ v c', pullLe64 c = .ok (v, c') :=
  pullDecode_returns _ _ _ _

/-! ## What has been read -/

/-- A reader that did not run short has taken its bytes off the front. -/
theorem consumes_pull {n : ℕ} {c : Cursor U8} {p : Option (Bytes n)} {rest : List U8}
    (h : pull n c = .ok (p, some rest)) :
    ∃ bs : Bytes n, p = some bs ∧ c = some (bs.1 ++ rest) := by
  cases c with
  | none => cases h
  | some bs =>
    by_cases hlt : bs.length < n
    · rw [pull_short hlt] at h
      cases h
    · rw [pull, dif_neg hlt] at h
      cases h
      exact ⟨_, rfl, by rw [List.take_append_drop]⟩

theorem consumes_pullCopy {n : ℕ} {c : Cursor U8} {bs : Bytes n} {rest : List U8}
    (h : pullCopy n c = .ok (bs, some rest)) : c = some (bs.1 ++ rest) := by
  rw [pullCopy, bind_apply] at h
  obtain ⟨⟨p, c'⟩, hp, h'⟩ := of_bind_ok h
  cases h'
  obtain ⟨bs, rfl, hc⟩ := consumes_pull hp
  exact hc

theorem consumes_pullDecode {α : Type} {n : ℕ} {z a : α} {dec : List U8 → α} {c : Cursor U8}
    {rest : List U8} (h : pullDecode n z dec c = .ok (a, some rest)) :
    ∃ bs, bs.length = n ∧ dec bs = a ∧ c = some (bs ++ rest) := by
  rw [pullDecode, bind_apply] at h
  obtain ⟨⟨p, c'⟩, hp, h'⟩ := of_bind_ok h
  cases p with
  | none =>
    cases h'
    obtain ⟨bs, hbs, -⟩ := consumes_pull hp
    cases hbs
  | some bs =>
    cases h'
    obtain ⟨bs', hbs, hc⟩ := consumes_pull hp
    cases hbs
    exact ⟨bs.1, bs.2, rfl, hc⟩

theorem consumes_pullLe32 {c : Cursor U8} {v : U32} {rest : List U8}
    (h : pullLe32 c = .ok (v, some rest)) : c = some (le32Bytes v ++ rest) := by
  obtain ⟨bs, hlen, rfl, hc⟩ := consumes_pullDecode h
  have hlt := ofLE_lt bs
  rw [hlen] at hlt
  rw [le32Bytes, BitVec.toNat_ofNat, Nat.mod_eq_of_lt (by omega), ← hlen, toLE_ofLE]
  exact hc

theorem consumes_pullLe64 {c : Cursor U8} {v : U64} {rest : List U8}
    (h : pullLe64 c = .ok (v, some rest)) : c = some (le64Bytes v ++ rest) := by
  obtain ⟨bs, hlen, rfl, hc⟩ := consumes_pullDecode h
  have hlt := ofLE_lt bs
  rw [hlen] at hlt
  rw [le64Bytes, BitVec.toNat_ofNat, Nat.mod_eq_of_lt (by omega), ← hlen, toLE_ofLE]
  exact hc

theorem pullDecode_suffix {α : Type} {n : ℕ} {z a : α} {dec : List U8 → α} {bs p : List U8}
    (h : pullDecode n z dec (some bs) = .ok (a, some p)) : p <:+ bs := by
  obtain ⟨q, -, -, hq⟩ := consumes_pullDecode h
  obtain rfl : bs = q ++ p := Option.some.inj hq
  exact List.suffix_append q p

/-- A reader leaves the end of what there was. -/
theorem pullVarint_suffix {bs p : List U8} {v : U64}
    (h : pullVarint (some bs) = .ok (v, some p)) : p <:+ bs := by
  cases bs with
  | nil =>
    rw [pullVarint_nil] at h
    cases h
  | cons b bs =>
    refine List.IsSuffix.trans ?_ (List.suffix_cons b bs)
    rw [pullVarint_cons, pullVarintRest] at h
    split_ifs at h
    · cases h
      exact List.suffix_rfl
    · exact pullDecode_suffix h
    · exact pullDecode_suffix h
    · exact pullDecode_suffix h

/-! ## Round trips -/

theorem reads_le32 (v : U32) : Reads pullLe32 v (le32Bytes v) :=
  reads_pullDecode (toLE_length 4 _) 0 (ofNat_ofLE_toLE (by norm_num) v)

theorem reads_le64 (v : U64) : Reads pullLe64 v (le64Bytes v) :=
  reads_pullDecode (toLE_length 8 _) 0 (ofNat_ofLE_toLE (by norm_num) v)

theorem varintBytes_length (v : U64) : (varintBytes v).length = varintLen v.toNat := by
  have h₁ : v < 0xfd ↔ v.toNat < 0xfd := Iff.rfl
  have h₂ : v ≤ 0xffff ↔ v.toNat ≤ 0xffff := Iff.rfl
  have h₃ : v ≤ 0xffffffff ↔ v.toNat ≤ 0xffffffff := Iff.rfl
  simp only [varintBytes, varintLen, h₁, h₂, h₃]
  split_ifs <;> rfl

theorem varintLen_pos (v : ℕ) : 0 < varintLen v := by
  unfold varintLen; split_ifs <;> norm_num

theorem varintLen_le (v : ℕ) : varintLen v ≤ 9 := by
  unfold varintLen; split_ifs <;> norm_num

/-- A marker byte followed by a payload that `pull_varint` reads back. -/
theorem reads_marker {b : U8} {v : U64} {payload : List U8}
    (h : Reads (pullVarintRest b) v payload) : Reads pullVarint v (b :: payload) where
  full rest := by rw [List.cons_append, pullVarint_cons]; exact h.full rest
  short pre hpre hne := by
    cases pre with
    | nil => exact ⟨0, pullVarint_nil⟩
    | cons c pre =>
      obtain ⟨rfl, hpre'⟩ := List.cons_prefix_cons.mp hpre
      rw [pullVarint_cons]
      exact h.short pre hpre' fun e => hne (by rw [e])

theorem pulled_toNat (p : List U8) (i : ℕ) (h : i < 8) :
    (pulled p i).toNat = (p.getD i 0).toNat * 2 ^ (8 * i) := by
  have hb := (p.getD i 0).isLt
  have hlt : (p.getD i 0).toNat * 2 ^ (8 * i) < 2 ^ 64 :=
    calc (p.getD i 0).toNat * 2 ^ (8 * i) < 2 ^ 8 * 2 ^ (8 * i) :=
          Nat.mul_lt_mul_of_pos_right hb (by positivity)
      _ = 2 ^ (8 + 8 * i) := (pow_add 2 8 (8 * i)).symm
      _ ≤ 2 ^ 64 := Nat.pow_le_pow_right (by norm_num) (by omega)
  rw [pulled, BitVec.toNat_shiftLeft, BitVec.toNat_setWidth, Nat.shiftLeft_eq,
    Nat.mod_eq_of_lt (hb.trans (by norm_num)), Nat.mod_eq_of_lt hlt]

/-- `pull_varint` undoes `add_varint`, in each of the four widths. -/
theorem reads_varint (v : U64) : Reads pullVarint v (varintBytes v) := by
  have hv := v.isLt
  unfold varintBytes
  split_ifs with h1 h2 h3
  · refine reads_marker ?_
    have h1' : v.toNat < 253 := h1
    have hb : v.setWidth 8 < 0xfd := by
      rw [BitVec.lt_def, BitVec.toNat_setWidth]
      exact (Nat.mod_le _ _).trans_lt h1'
    have hback : (v.setWidth 8).setWidth 64 = v := by
      apply BitVec.eq_of_toNat_eq
      simp only [BitVec.toNat_setWidth]
      omega
    rw [pullVarintRest, if_pos hb, hback]
    exact Reads.pure v
  · refine reads_marker ?_
    rw [pullVarintRest, if_neg (by decide), if_pos rfl]
    refine reads_pullDecode (by rfl) 0 (BitVec.eq_of_toNat_eq ?_)
    have h2' : v.toNat ≤ 0xffff := h2
    simp [pulled_toNat, BitVec.toNat_add]
    omega
  · refine reads_marker ?_
    rw [pullVarintRest, if_neg (by decide), if_neg (by decide), if_pos rfl]
    refine reads_pullDecode (by rfl) 0 (BitVec.eq_of_toNat_eq ?_)
    have h3' : v.toNat ≤ 0xffffffff := h3
    simp [pulled_toNat, BitVec.toNat_add]
    omega
  · refine reads_marker ?_
    rw [pullVarintRest, if_neg (by decide), if_neg (by decide), if_neg (by decide)]
    refine reads_pullDecode (by rfl) 0 (BitVec.eq_of_toNat_eq ?_)
    simp [pulled_toNat, BitVec.toNat_add]
    omega

end BitcoinIblt
