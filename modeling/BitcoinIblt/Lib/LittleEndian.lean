import Mathlib

/-!
# Little-endian bytes

`toLE k v` is the `k` low bytes of `v`, lowest first; `ofLE` reads such a list back. A fixed-width
word is written with `toLE k v.toNat` and read with `BitVec.ofNat w (ofLE l)`.
-/

namespace LittleEndian

abbrev Byte := BitVec 8

/-- The `k` low bytes of `v`, lowest first. -/
def toLE : ℕ → ℕ → List Byte
  | 0, _ => []
  | k + 1, v => BitVec.ofNat 8 v :: toLE k (v / 256)

/-- The number whose bytes, lowest first, are `l`. -/
def ofLE : List Byte → ℕ
  | [] => 0
  | b :: l => b.toNat + 256 * ofLE l

@[simp] theorem toLE_length (k v : ℕ) : (toLE k v).length = k := by
  induction k generalizing v with
  | zero => rfl
  | succ k ih => simp [toLE, ih]

theorem ofLE_lt (l : List Byte) : ofLE l < 256 ^ l.length := by
  induction l with
  | nil => simp [ofLE]
  | cons b l ih =>
    have hb := b.isLt
    simp only [ofLE, List.length_cons, Nat.pow_succ]
    omega

/-- Reading back what was written keeps the low bytes. -/
theorem ofLE_toLE (k v : ℕ) : ofLE (toLE k v) = v % 256 ^ k := by
  induction k generalizing v with
  | zero => simp [toLE, ofLE, Nat.mod_one]
  | succ k ih =>
    have h : v % (256 * 256 ^ k) = v % 256 + 256 * (v / 256 % 256 ^ k) := Nat.mod_mul
    have hb : (BitVec.ofNat 8 v).toNat = v % 256 := BitVec.toNat_ofNat v 8
    rw [toLE, ofLE, ih, hb, pow_succ', h]

theorem ofLE_toLE_of_lt {k v : ℕ} (h : v < 256 ^ k) : ofLE (toLE k v) = v := by
  rw [ofLE_toLE, Nat.mod_eq_of_lt h]

/-- Writing back what was read gives the same bytes. -/
theorem toLE_ofLE (l : List Byte) : toLE l.length (ofLE l) = l := by
  induction l with
  | nil => rfl
  | cons b l ih =>
    have hb := b.isLt
    have hmod : BitVec.ofNat 8 (b.toNat + 256 * ofLE l) = b := by
      apply BitVec.eq_of_toNat_eq
      rw [BitVec.toNat_ofNat]
      omega
    have hdiv : (b.toNat + 256 * ofLE l) / 256 = ofLE l := by omega
    rw [List.length_cons, ofLE, toLE, hmod, hdiv, ih]

/-- A word of `w` bits survives being written in at least `w` bits of bytes. -/
theorem ofNat_ofLE_toLE {w k : ℕ} (h : 2 ^ w ≤ 256 ^ k) (v : BitVec w) :
    BitVec.ofNat w (ofLE (toLE k v.toNat)) = v := by
  rw [ofLE_toLE_of_lt (v.isLt.trans_le h)]
  rw [BitVec.ofNat_toNat, BitVec.setWidth_eq]

end LittleEndian
