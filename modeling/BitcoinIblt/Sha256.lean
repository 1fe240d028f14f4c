import BitcoinIblt.BitcoinTx
import BitcoinIblt.Lib.Overwrite
import BitcoinIblt.Lib.Sha2

/-!
# The SHA-256 of `ccan`

`sha256.c` hashes a message it is given in pieces. `transform` unrolls the rounds: eight calls of
`round` bring the registers back into their places without moving them, and the sixteen schedule
words are updated in place. `add` keeps what does not fill a block in a buffer of 64 bytes, the rest
of which is what earlier pieces left there, and compresses full blocks straight from its input.
-/

namespace BitcoinIblt

open LittleEndian BlockHash

namespace Sha256

open Sha2 (Registers)

/-! ## Words -/

def Ch (x y z : U32) : U32 := z ^^^ (x &&& (y ^^^ z))

def Maj (x y z : U32) : U32 := (x &&& y) ||| (z &&& (x ||| y))

def Sigma0 (x : U32) : U32 :=
  (x >>> 2 ||| x <<< 30) ^^^ (x >>> 13 ||| x <<< 19) ^^^ (x >>> 22 ||| x <<< 10)

def Sigma1 (x : U32) : U32 :=
  (x >>> 6 ||| x <<< 26) ^^^ (x >>> 11 ||| x <<< 21) ^^^ (x >>> 25 ||| x <<< 7)

def sigma0 (x : U32) : U32 :=
  (x >>> 7 ||| x <<< 25) ^^^ (x >>> 18 ||| x <<< 14) ^^^ x >>> 3

def sigma1 (x : U32) : U32 :=
  (x >>> 17 ||| x <<< 15) ^^^ (x >>> 19 ||| x <<< 13) ^^^ x >>> 10

theorem Ch_eq (x y z : U32) : Ch x y z = Sha2.choose x y z := by
  apply BitVec.eq_of_getLsbD_eq
  intro i hi
  simp only [Ch, Sha2.choose, BitVec.getLsbD_xor, BitVec.getLsbD_and, BitVec.getLsbD_not, hi]
  cases x.getLsbD i <;> cases y.getLsbD i <;> cases z.getLsbD i <;> rfl

theorem Maj_eq (x y z : U32) : Maj x y z = Sha2.majority x y z := by
  apply BitVec.eq_of_getLsbD_eq
  intro i hi
  simp only [Maj, Sha2.majority, BitVec.getLsbD_xor, BitVec.getLsbD_and, BitVec.getLsbD_or]
  cases x.getLsbD i <;> cases y.getLsbD i <;> cases z.getLsbD i <;> rfl

/-- A rotation written as two shifts. -/
theorem rotate_eq (x : U32) {n : ℕ} (h : n < 32) :
    x >>> n ||| x <<< (32 - n) = x.rotateRight n := by
  rw [BitVec.rotateRight_def, Nat.mod_eq_of_lt h]

theorem Sigma0_eq (x : U32) : Sigma0 x = Sha2.bigSigma0 x := by
  simp only [Sigma0, Sha2.bigSigma0, ← rotate_eq x (show 2 < 32 by decide),
    ← rotate_eq x (show 13 < 32 by decide), ← rotate_eq x (show 22 < 32 by decide)]

theorem Sigma1_eq (x : U32) : Sigma1 x = Sha2.bigSigma1 x := by
  simp only [Sigma1, Sha2.bigSigma1, ← rotate_eq x (show 6 < 32 by decide),
    ← rotate_eq x (show 11 < 32 by decide), ← rotate_eq x (show 25 < 32 by decide)]

theorem sigma0_eq (x : U32) : sigma0 x = Sha2.smallSigma0 x := by
  simp only [sigma0, Sha2.smallSigma0, ← rotate_eq x (show 7 < 32 by decide),
    ← rotate_eq x (show 18 < 32 by decide)]

theorem sigma1_eq (x : U32) : sigma1 x = Sha2.smallSigma1 x := by
  simp only [sigma1, Sha2.smallSigma1, ← rotate_eq x (show 17 < 32 by decide),
    ← rotate_eq x (show 19 < 32 by decide)]

/-! ## Rounds -/

/-- `Round`: what it makes of `*d` and `*h`. -/
def round (a b c d e f g h k w : U32) : U32 × U32 :=
  let t1 := h + Sigma1 e + Ch e f g + k + w
  let t2 := Sigma0 a + Maj a b c
  (d + t1, t1 + t2)

/-- Eight lines of `Transform`: each register is `a` once, `b` once and so on. -/
def eightRounds (k w : ℕ → U32) (s : Registers) : Registers :=
  let ⟨a, b, c, d, e, f, g, h⟩ := s
  let (d, h) := round a b c d e f g h (k 0) (w 0)
  let (c, g) := round h a b c d e f g (k 1) (w 1)
  let (b, f) := round g h a b c d e f (k 2) (w 2)
  let (a, e) := round f g h a b c d e (k 3) (w 3)
  let (h, d) := round e f g h a b c d (k 4) (w 4)
  let (g, c) := round d e f g h a b c (k 5) (w 5)
  let (f, b) := round c d e f g h a b (k 6) (w 6)
  let (e, a) := round b c d e f g h a (k 7) (w 7)
  ⟨a, b, c, d, e, f, g, h⟩

/-- One call of `Round`, with the registers renamed instead of moved. -/
theorem round_eq (a b c d e f g h k w : U32) :
    Sha2.round ⟨a, b, c, d, e, f, g, h⟩ k w =
      ⟨(round a b c d e f g h k w).2, a, b, c, (round a b c d e f g h k w).1, e, f, g⟩ := by
  simp only [Sha2.round, round, Sigma0_eq, Sigma1_eq, Ch_eq, Maj_eq]

section EightRounds

attribute [local irreducible] Sha2.round

/-- After eight rounds the registers are where they would have been moved to. -/
theorem eightRounds_eq (k w : ℕ → U32) (s : Registers) :
    eightRounds k w s =
      Sha2.round (Sha2.round (Sha2.round (Sha2.round (Sha2.round (Sha2.round (Sha2.round
        (Sha2.round s (k 0) (w 0)) (k 1) (w 1)) (k 2) (w 2)) (k 3) (w 3)) (k 4) (w 4)) (k 5) (w 5))
        (k 6) (w 6)) (k 7) (w 7) := by
  obtain ⟨a, b, c, d, e, f, g, h⟩ := s
  rw [eightRounds]
  rw [round_eq a b c d e f g h]
  generalize round a b c d e f g h (k 0) (w 0) = p
  obtain ⟨d, h⟩ := p
  dsimp only
  rw [round_eq h a b c d e f g]
  generalize round h a b c d e f g (k 1) (w 1) = p
  obtain ⟨c, g⟩ := p
  dsimp only
  rw [round_eq g h a b c d e f]
  generalize round g h a b c d e f (k 2) (w 2) = p
  obtain ⟨b, f⟩ := p
  dsimp only
  rw [round_eq f g h a b c d e]
  generalize round f g h a b c d e (k 3) (w 3) = p
  obtain ⟨a, e⟩ := p
  dsimp only
  rw [round_eq e f g h a b c d]
  generalize round e f g h a b c d (k 4) (w 4) = p
  obtain ⟨h, d⟩ := p
  dsimp only
  rw [round_eq d e f g h a b c]
  generalize round d e f g h a b c (k 5) (w 5) = p
  obtain ⟨g, c⟩ := p
  dsimp only
  rw [round_eq c d e f g h a b]
  generalize round c d e f g h a b (k 6) (w 6) = p
  obtain ⟨f, b⟩ := p
  dsimp only
  rw [round_eq b c d e f g h a]

end EightRounds

/-! ## One block -/

/-- `chunk` as sixteen words, each read with `be32_to_cpu`. -/
def loadWords (chunk : List U8) : Vector U32 16 := Vector.ofFn fun i => Sha2.word chunk i

/-- The argument of sixteen calls: `w0 += sigma1(w14) + w9 + sigma0(w1)` and so on. -/
def updateWord (w : Vector U32 16) (i : Fin 16) : Vector U32 16 :=
  w.set i (w.get i + (sigma1 (w.get (i + 14)) + w.get (i + 9) + sigma0 (w.get (i + 1))))

def updateWords (w : Vector U32 16) : Vector U32 16 := (List.finRange 16).foldl updateWord w

/-- The constants in the order of the calls of `Round`. -/
def roundConstants : Vector U32 64 := #v[
  0x428a2f98, 0x71374491, 0xb5c0fbcf, 0xe9b5dba5, 0x3956c25b, 0x59f111f1, 0x923f82a4, 0xab1c5ed5,
  0xd807aa98, 0x12835b01, 0x243185be, 0x550c7dc3, 0x72be5d74, 0x80deb1fe, 0x9bdc06a7, 0xc19bf174,
  0xe49b69c1, 0xefbe4786, 0x0fc19dc6, 0x240ca1cc, 0x2de92c6f, 0x4a7484aa, 0x5cb0a9dc, 0x76f988da,
  0x983e5152, 0xa831c66d, 0xb00327c8, 0xbf597fc7, 0xc6e00bf3, 0xd5a79147, 0x06ca6351, 0x14292967,
  0x27b70a85, 0x2e1b2138, 0x4d2c6dfc, 0x53380d13, 0x650a7354, 0x766a0abb, 0x81c2c92e, 0x92722c85,
  0xa2bfe8a1, 0xa81a664b, 0xc24b8b70, 0xc76c51a3, 0xd192e819, 0xd6990624, 0xf40e3585, 0x106aa070,
  0x19a4c116, 0x1e376c08, 0x2748774c, 0x34b0bcb5, 0x391c0cb3, 0x4ed8aa4a, 0x5b9cca4f, 0x682e6ff3,
  0x748f82ee, 0x78a5636f, 0x84c87814, 0x8cc70208, 0x90befffa, 0xa4506ceb, 0xbef9a3f7, 0xc67178f2]

/-- The sixteen calls of `Round` from number `t` on. -/
def sixteenRounds (t : ℕ) (w : Vector U32 16) (s : Registers) : Registers :=
  let k (i : ℕ) : U32 := roundConstants.getD (t + i) 0
  let w (i : ℕ) : U32 := w.getD i 0
  eightRounds (fun i => k (8 + i)) (fun i => w (8 + i)) (eightRounds k w s)

/-- `Transform`. The words of the last two calls are not stored, nor read again. -/
def transform (s : Registers) (chunk : List U8) : Registers :=
  let w₀ := loadWords chunk
  let w₁ := updateWords w₀
  let w₂ := updateWords w₁
  let w₃ := updateWords w₂
  s.add (sixteenRounds 48 w₃ (sixteenRounds 32 w₂ (sixteenRounds 16 w₁ (sixteenRounds 0 w₀ s))))

/-- `w` holds the sixteen words of the schedule from number `t` on. -/
def Scheduled (chunk : List U8) (t : ℕ) (w : Vector U32 16) : Prop :=
  ∀ i : Fin 16, w.get i = Sha2.schedule chunk (t + i)

theorem scheduled_loadWords (chunk : List U8) : Scheduled chunk 0 (loadWords chunk) := by
  intro i
  rw [Nat.zero_add, Sha2.schedule_of_lt chunk i.isLt]
  exact Vector.getElem_ofFn i.isLt

/-- The first `n` words are sixteen ahead of the others. -/
def Updated (chunk : List U8) (t n : ℕ) (w : Vector U32 16) : Prop :=
  ∀ i : Fin 16, w.get i = Sha2.schedule chunk (if i.1 < n then t + 16 + i else t + i)

/-- What the update of word `i` reads, in the places before it and behind it. -/
theorem Updated.get_add {chunk : List U8} {t : ℕ} {w : Vector U32 16} {i : Fin 16}
    (h : Updated chunk t i w) (k : Fin 16) : w.get (i + k) = Sha2.schedule chunk (t + i + k) := by
  have hi := i.isLt
  have hk := k.isLt
  rw [h, Fin.val_add]
  congr 1
  split <;> omega

theorem Updated.step {chunk : List U8} {t : ℕ} {w : Vector U32 16} {i : Fin 16}
    (h : Updated chunk t i w) : Updated chunk t (i + 1) (updateWord w i) := by
  have hself : w.get i = Sha2.schedule chunk (t + i) := by
    rw [h, if_neg (lt_irrefl _)]
  have hnew : w.get i + (sigma1 (w.get (i + 14)) + w.get (i + 9) + sigma0 (w.get (i + 1))) =
      Sha2.schedule chunk (t + i + 16) := by
    rw [h.get_add, h.get_add, h.get_add, hself, Sha2.schedule_add_sixteen, sigma0_eq, sigma1_eq,
      BitVec.add_comm]
    rfl
  intro j
  by_cases hj : j = i
  · subst hj
    rw [if_pos (Nat.lt_succ_self _), Nat.add_right_comm, ← hnew]
    exact Vector.getElem_set_self j.isLt
  · have hother : (updateWord w i).get j = w.get j :=
      Vector.getElem_set_ne i.isLt j.isLt fun e => hj (Fin.ext e.symm)
    have hne : j.1 ≠ i.1 := fun e => hj (Fin.ext e)
    rw [hother, h j]
    congr 1
    split <;> split <;> omega

theorem Scheduled.updateWords {chunk : List U8} {t : ℕ} {w : Vector U32 16}
    (h : Scheduled chunk t w) : Scheduled chunk (t + 16) (updateWords w) := by
  have hrun : ∀ n : ℕ, (hn : n ≤ 16) →
      Updated chunk t n (((List.finRange 16).take n).foldl updateWord w) := by
    intro n
    induction n with
    | zero =>
      intro _ i
      rw [if_neg (Nat.not_lt_zero _)]
      exact h i
    | succ n ih =>
      intro hn
      have hlt : n < (List.finRange 16).length := by
        rw [List.length_finRange]
        omega
      rw [List.take_succ_eq_append_getElem hlt, List.foldl_append, List.getElem_finRange]
      exact (ih (by omega)).step (i := ⟨n, by omega⟩)
  intro i
  have hall := hrun 16 le_rfl i
  rwa [if_pos i.isLt, List.take_of_length_le (by rw [List.length_finRange])] at hall

theorem roundConstants_eq (t : Fin 64) : roundConstants.get t = Sha2.roundConstant t := by
  rw [Sha2.roundConstant_eq]
  revert t
  decide +kernel

theorem eightRounds_rounds {chunk : List U8} {t : ℕ} {k w : ℕ → U32}
    (hk : ∀ i < 8, k i = Sha2.roundConstant (t + i))
    (hw : ∀ i < 8, w i = Sha2.schedule chunk (t + i)) (s : Registers) :
    eightRounds k w s = Sha2.rounds chunk t 8 s := by
  rw [eightRounds_eq, hk 0 (by omega), hk 1 (by omega), hk 2 (by omega), hk 3 (by omega),
    hk 4 (by omega), hk 5 (by omega), hk 6 (by omega), hk 7 (by omega), hw 0 (by omega),
    hw 1 (by omega), hw 2 (by omega), hw 3 (by omega), hw 4 (by omega), hw 5 (by omega),
    hw 6 (by omega), hw 7 (by omega)]
  rfl

theorem getD_eq_get {n : ℕ} (v : Vector U32 n) (i : Fin n) : v.getD i 0 = v.get i :=
  Array.getElem_eq_getD 0 |>.symm

theorem sixteenRounds_eq {chunk : List U8} {t : ℕ} (ht : t + 16 ≤ 64) {w : Vector U32 16}
    (h : Scheduled chunk t w) (s : Registers) :
    sixteenRounds t w s = Sha2.rounds chunk t 16 s := by
  have hk : ∀ i < 16, roundConstants.getD (t + i) 0 = Sha2.roundConstant (t + i) := by
    intro i hi
    exact (getD_eq_get roundConstants ⟨t + i, by omega⟩).trans (roundConstants_eq _)
  have hw : ∀ i < 16, w.getD i 0 = Sha2.schedule chunk (t + i) := by
    intro i hi
    exact (getD_eq_get w ⟨i, hi⟩).trans (h ⟨i, hi⟩)
  simp only [sixteenRounds]
  rw [Sha2.rounds_add chunk t 8 8, eightRounds_rounds (fun i hi => hk i (by omega))
    fun i hi => hw i (by omega)]
  apply eightRounds_rounds
  · intro i hi
    rw [hk _ (by omega), Nat.add_assoc]
  · intro i hi
    rw [hw _ (by omega), Nat.add_assoc]

theorem transform_eq (s : Registers) (chunk : List U8) :
    transform s chunk = Sha2.compress s chunk := by
  have h₀ := scheduled_loadWords chunk
  have h₁ := h₀.updateWords
  have h₂ := h₁.updateWords
  have h₃ := h₂.updateWords
  simp only [transform]
  rw [sixteenRounds_eq (by omega) h₀, sixteenRounds_eq (t := 16) (by omega) h₁,
    sixteenRounds_eq (t := 32) (by omega) h₂, sixteenRounds_eq (t := 48) (by omega) h₃,
    Sha2.compress, Sha2.rounds_add chunk 0 16 48, Sha2.rounds_add chunk (0 + 16) 16 32,
    Sha2.rounds_add chunk (0 + 16 + 16) 16 16]

end Sha256

end BitcoinIblt
