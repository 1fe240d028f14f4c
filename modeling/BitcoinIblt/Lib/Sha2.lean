import Mathlib
import BitcoinIblt.Lib.BlockHash
import BitcoinIblt.Lib.LittleEndian

/-!
# SHA-256

The hash function as its standard describes it, without a thought for speed: 64 rounds over eight
registers, each with a constant and a word of the message schedule, and a message padded to whole
blocks with its length in bits at the end. The constants are not listed here: they are the first 32
bits of the fractional parts of the cube roots and the square roots of the first primes.
`roundConstant_eq` and `initialWord_eq` let them be computed.
-/

namespace Sha2

open BlockHash LittleEndian

abbrev Word := BitVec 32

/-! ## Functions on words -/

def choose (x y z : Word) : Word := (x &&& y) ^^^ (~~~x &&& z)

def majority (x y z : Word) : Word := (x &&& y) ^^^ (x &&& z) ^^^ (y &&& z)

def bigSigma0 (x : Word) : Word := x.rotateRight 2 ^^^ x.rotateRight 13 ^^^ x.rotateRight 22

def bigSigma1 (x : Word) : Word := x.rotateRight 6 ^^^ x.rotateRight 11 ^^^ x.rotateRight 25

def smallSigma0 (x : Word) : Word := x.rotateRight 7 ^^^ x.rotateRight 18 ^^^ x >>> 3

def smallSigma1 (x : Word) : Word := x.rotateRight 17 ^^^ x.rotateRight 19 ^^^ x >>> 10

/-! ## Constants -/

/-- The `t`-th prime. -/
noncomputable def prime (t : ℕ) : ℕ := Nat.nth Nat.Prime t

/-- The first 32 bits of the fractional part of the cube root of the `t`-th prime. -/
noncomputable def roundConstant (t : ℕ) : Word :=
  BitVec.ofNat 32 (Nat.nthRoot 3 (prime t * 2 ^ 96))

/-- The first 32 bits of the fractional part of the square root of the `t`-th prime. -/
noncomputable def initialWord (t : ℕ) : Word :=
  BitVec.ofNat 32 (Nat.nthRoot 2 (prime t * 2 ^ 64))

/-- The primes the constants are made of. -/
def primes : Vector ℕ 64 := #v[
  2, 3, 5, 7, 11, 13, 17, 19, 23, 29, 31, 37, 41, 43, 47, 53, 59, 61, 67, 71, 73, 79, 83, 89, 97,
  101, 103, 107, 109, 113, 127, 131, 137, 139, 149, 151, 157, 163, 167, 173, 179, 181, 191, 193,
  197, 199, 211, 223, 227, 229, 233, 239, 241, 251, 257, 263, 269, 271, 277, 281, 283, 293, 307,
  311]

theorem count_between (t : Fin 63) :
    Nat.count (fun k => (primes.get t.castSucc + k).Prime)
      (primes.get t.succ - primes.get t.castSucc) = 1 ∧
      primes.get t.castSucc ≤ primes.get t.succ := by
  revert t
  decide +kernel

theorem count_primes (t : Fin 64) :
    (primes.get t).Prime ∧ Nat.count Nat.Prime (primes.get t) = t := by
  constructor
  · revert t
    decide +kernel
  · induction t using Fin.induction with
    | zero => decide +kernel
    | succ t ih =>
      obtain ⟨hone, hle⟩ := count_between t
      rw [← Nat.add_sub_of_le hle, Nat.count_add, ih, hone, Fin.val_castSucc, Fin.val_succ]

theorem prime_eq (t : Fin 64) : prime t = primes.get t := by
  obtain ⟨hprime, hcount⟩ := count_primes t
  have hnth := Nat.nth_count hprime
  rwa [hcount] at hnth

theorem roundConstant_eq (t : Fin 64) :
    roundConstant t = BitVec.ofNat 32 (Nat.nthRoot 3 (primes.get t * 2 ^ 96)) := by
  rw [roundConstant, prime_eq]

theorem initialWord_eq (t : Fin 64) :
    initialWord t = BitVec.ofNat 32 (Nat.nthRoot 2 (primes.get t * 2 ^ 64)) := by
  rw [initialWord, prime_eq]

/-! ## Compression -/

@[ext] structure Registers where
  a : Word
  b : Word
  c : Word
  d : Word
  e : Word
  f : Word
  g : Word
  h : Word
  deriving DecidableEq

/-- The sums of the registers. -/
def Registers.add (r s : Registers) : Registers :=
  ⟨r.a + s.a, r.b + s.b, r.c + s.c, r.d + s.d, r.e + s.e, r.f + s.f, r.g + s.g, r.h + s.h⟩

/-- One round, with constant `k` and schedule word `w`. -/
def round (r : Registers) (k w : Word) : Registers :=
  let t₁ := r.h + bigSigma1 r.e + choose r.e r.f r.g + k + w
  let t₂ := bigSigma0 r.a + majority r.a r.b r.c
  ⟨t₁ + t₂, r.a, r.b, r.c, r.d + t₁, r.e, r.f, r.g⟩

/-- The `k` low bytes of `v`, highest first. -/
def toBE (k v : ℕ) : List Byte := (toLE k v).reverse

theorem toBE_mod (k v : ℕ) : toBE k (v % 256 ^ k) = toBE k v := by
  have hback := toLE_ofLE (toLE k v)
  rw [toLE_length, ofLE_toLE] at hback
  rw [toBE, toBE, hback]

/-- The number whose bytes, highest first, are `l`. -/
def ofBE (l : List Byte) : ℕ := ofLE l.reverse

/-- Word `t` of a block. -/
def word (block : List Byte) (t : ℕ) : Word := BitVec.ofNat 32 (ofBE ((block.drop (4 * t)).take 4))

/-- The message schedule of a block. -/
def schedule (block : List Byte) (t : ℕ) : Word :=
  if t < 16 then word block t
  else smallSigma1 (schedule block (t - 2)) + schedule block (t - 7) +
    smallSigma0 (schedule block (t - 15)) + schedule block (t - 16)

theorem schedule_of_lt (block : List Byte) {t : ℕ} (h : t < 16) :
    schedule block t = word block t := by
  rw [schedule, if_pos h]

theorem schedule_add_sixteen (block : List Byte) (t : ℕ) :
    schedule block (t + 16) = smallSigma1 (schedule block (t + 14)) + schedule block (t + 9) +
      smallSigma0 (schedule block (t + 1)) + schedule block t := by
  rw [schedule, if_neg (by omega)]
  simp only [Nat.reduceSubDiff, Nat.add_sub_cancel]

/-- The rounds `t`, …, `t + n - 1`. -/
noncomputable def rounds (block : List Byte) (t n : ℕ) (r : Registers) : Registers :=
  (List.range' t n).foldl (fun r t => round r (roundConstant t) (schedule block t)) r

theorem rounds_add (block : List Byte) (t m n : ℕ) (r : Registers) :
    rounds block t (m + n) r = rounds block (t + m) n (rounds block t m r) := by
  simp only [rounds]
  rw [← List.range'_append_1, List.foldl_append]

noncomputable def compress (r : Registers) (block : List Byte) : Registers :=
  r.add (rounds block 0 64 r)

/-! ## The hash of a message -/

noncomputable def initial : Registers :=
  ⟨initialWord 0, initialWord 1, initialWord 2, initialWord 3, initialWord 4, initialWord 5,
    initialWord 6, initialWord 7⟩

/-- A bit, the zeros after which eight bytes are left of a block, and the length in bits. -/
def padding (length : ℕ) : List Byte :=
  0x80 :: (List.replicate ((55 - (length : ℤ)) % 64).toNat 0 ++ toBE 8 (8 * length))

def Registers.bytes (r : Registers) : List Byte :=
  [r.a, r.b, r.c, r.d, r.e, r.f, r.g, r.h].flatMap fun w => toBE 4 w.toNat

theorem Registers.length_bytes (r : Registers) : r.bytes.length = 32 := by
  simp [Registers.bytes, toBE]

/-- The state after the padded message. -/
noncomputable def final (m : List Byte) : Registers :=
  let padded := m ++ padding m.length
  chain compress 64 (padded.length / 64) initial padded

/-- The 32 bytes of the hash of `m`. -/
noncomputable def digest (m : List Byte) : { l : List Byte // l.length = 32 } :=
  ⟨(final m).bytes, (final m).length_bytes⟩

end Sha2
