import BitcoinIblt.Tx

/-!
# The fee rate

`tx::satoshi_per_byte` is documented as a fixed-point number with 13 bits after the point: "Fee is
actually capped at 2,100,000,000,000,000 satoshi. 2^51 == 2,251,799,813,685,248, so we have 13 bits
remaining." The code computes `fee << 13 / length`, and the division binds tighter than the shift.
A transaction is at least ten bytes long, so the shift is by one bit up to a length of 13 and by
none above: what is returned is the fee, or twice the fee, and next to never the rate
(`satoshiPerByte_iff`).
-/

namespace BitcoinIblt

/-- The cap on fees. -/
def maxFee : ℕ := 2100000000000000

namespace Tx

/-- Satoshi per byte with 13 bits after the point, rounded down: what the comment describes. -/
def feeRate (t : Tx) : ℕ := t.fee.toNat * 2 ^ 13 / t.btx.length

/-- The fee is the rate: there is no fee, or the length is `2 ^ 13` but for rounding. -/
def AtFixedPoint (t : Tx) : Prop :=
  t.fee = 0 ∨ (t.btx.length ≤ 2 ^ 13 ∧ t.fee.toNat * (2 ^ 13 - t.btx.length) < t.btx.length)

instance : DecidablePred AtFixedPoint := fun _ => by unfold AtFixedPoint; infer_instance

variable {t : Tx}

/-- The shift is by at most one bit, so it does not overflow. -/
theorem toNat_satoshiPerByte (h : t.fee.toNat ≤ maxFee) :
    t.satoshiPerByte.toNat = t.fee.toNat * 2 ^ (13 / t.btx.length) := by
  have hlen := ten_le_length t.btx
  have hshift : 13 / t.btx.length ≤ 1 := by
    rw [Nat.div_le_iff_le_mul_add_pred (by omega)]
    omega
  have hpow : 2 ^ (13 / t.btx.length) ≤ 2 ^ 1 := Nat.pow_le_pow_right (by decide) hshift
  have hle : t.fee.toNat * 2 ^ (13 / t.btx.length) ≤ maxFee * 2 ^ 1 := Nat.mul_le_mul h hpow
  rw [satoshiPerByte, BitVec.toNat_shiftLeft, Nat.shiftLeft_eq, Nat.mod_eq_of_lt]
  exact hle.trans_lt (by decide)

/-- A fee that is its own rate. -/
theorem fee_eq_rate_iff {fee len : ℕ} (hlen : 0 < len) :
    fee * 2 ^ 13 / len = fee ↔ fee = 0 ∨ (len ≤ 2 ^ 13 ∧ fee * (2 ^ 13 - len) < len) := by
  rw [Nat.div_eq_iff hlen]
  rcases Nat.eq_zero_or_pos fee with rfl | hfee
  · simp [hlen]
  · have hle : fee * len ≤ fee * 2 ^ 13 ↔ len ≤ 2 ^ 13 := Nat.mul_le_mul_left_iff hfee
    have hsub : len ≤ 2 ^ 13 → fee * 2 ^ 13 = fee * len + fee * (2 ^ 13 - len) := fun h => by
      rw [← Nat.mul_add, Nat.add_sub_cancel' h]
    constructor
    · rintro ⟨h₁, h₂⟩
      have h := hle.mp h₁
      have := hsub h
      exact Or.inr ⟨h, by omega⟩
    · rintro (h | ⟨h₁, h₂⟩)
      · omega
      · have := hsub h₁
        exact ⟨hle.mpr h₁, by omega⟩

/-- For lengths up to 13 the fee is doubled, far below the rate. -/
theorem double_fee_eq_rate_iff {fee len : ℕ} (hlen : 0 < len) (h13 : len ≤ 13) :
    fee * 2 ^ 13 / len = fee * 2 ↔ fee = 0 := by
  rw [Nat.div_eq_iff hlen]
  constructor
  · rintro ⟨-, h⟩
    have hmul : fee * 2 * len ≤ fee * 2 * 13 := Nat.mul_le_mul_left _ h13
    omega
  · rintro rfl
    omega

/-- What the code returns is the rate exactly for the transactions at the fixed point. -/
theorem satoshiPerByte_eq_feeRate_iff (h : t.fee.toNat ≤ maxFee) :
    t.satoshiPerByte.toNat = t.feeRate ↔ t.AtFixedPoint := by
  have hlen := ten_le_length t.btx
  have hzero : t.fee = 0 ↔ t.fee.toNat = 0 := BitVec.toNat_eq
  rw [toNat_satoshiPerByte h, feeRate, AtFixedPoint, hzero, eq_comm]
  by_cases h13 : t.btx.length ≤ 13
  · have hshift : 13 / t.btx.length = 1 := by
      rw [Nat.div_eq_iff (by omega)]
      omega
    rw [hshift, pow_one, double_fee_eq_rate_iff (by omega) h13]
    refine ⟨Or.inl, fun hfix => ?_⟩
    rcases hfix with h₀ | ⟨-, hlt⟩
    · exact h₀
    · -- a positive fee makes the product larger than the length
      by_contra hne
      have hmul : 2 ^ 13 - t.btx.length ≤ t.fee.toNat * (2 ^ 13 - t.btx.length) :=
        Nat.le_mul_of_pos_left _ (Nat.pos_of_ne_zero hne)
      omega
  · have hshift : 13 / t.btx.length = 0 := Nat.div_eq_of_lt (by omega)
    rw [hshift, pow_zero, mul_one, fee_eq_rate_iff (by omega)]

/-- Rates in one order are fees per byte in that order. -/
theorem lt_of_feeRate_lt {a b : Tx} (h : a.feeRate < b.feeRate) :
    a.fee.toNat * b.btx.length < b.fee.toNat * a.btx.length := by
  have ha := ten_le_length a.btx
  have hb := ten_le_length b.btx
  by_contra hle
  rw [not_lt] at hle
  refine absurd h (not_lt.mpr ?_)
  unfold feeRate
  rw [Nat.le_div_iff_mul_le (by omega)]
  refine Nat.le_of_mul_le_mul_right (c := b.btx.length) ?_ (by omega)
  calc b.fee.toNat * 2 ^ 13 / b.btx.length * a.btx.length * b.btx.length
      = b.fee.toNat * 2 ^ 13 / b.btx.length * b.btx.length * a.btx.length :=
        Nat.mul_right_comm _ _ _
    _ ≤ b.fee.toNat * 2 ^ 13 * a.btx.length :=
        Nat.mul_le_mul_right _ (Nat.div_mul_le_self _ _)
    _ = b.fee.toNat * a.btx.length * 2 ^ 13 := Nat.mul_right_comm _ _ _
    _ ≤ a.fee.toNat * b.btx.length * 2 ^ 13 := Nat.mul_le_mul_right _ hle
    _ = a.fee.toNat * 2 ^ 13 * b.btx.length := Nat.mul_right_comm _ _ _

/-- **The fee rate.** Two transactions have the rates that the comment describes, and are in the
order of their fees per byte, if and only if both are at the fixed point. -/
theorem satoshiPerByte_iff (a b : Tx) (ha : a.fee.toNat ≤ maxFee) (hb : b.fee.toNat ≤ maxFee) :
    (a.satoshiPerByte.toNat = a.feeRate ∧ b.satoshiPerByte.toNat = b.feeRate ∧
      (a.satoshiPerByte < b.satoshiPerByte →
        a.fee.toNat * b.btx.length < b.fee.toNat * a.btx.length) ∧
      (b.satoshiPerByte < a.satoshiPerByte →
        b.fee.toNat * a.btx.length < a.fee.toNat * b.btx.length)) ↔
      a.AtFixedPoint ∧ b.AtFixedPoint := by
  rw [satoshiPerByte_eq_feeRate_iff ha, satoshiPerByte_eq_feeRate_iff hb]
  refine ⟨fun h => ⟨h.1, h.2.1⟩, fun ⟨hfa, hfb⟩ => ⟨hfa, hfb, fun hlt => ?_, fun hlt => ?_⟩⟩
  · rw [BitVec.lt_def, (satoshiPerByte_eq_feeRate_iff ha).mpr hfa,
      (satoshiPerByte_eq_feeRate_iff hb).mpr hfb] at hlt
    exact lt_of_feeRate_lt hlt
  · rw [BitVec.lt_def, (satoshiPerByte_eq_feeRate_iff ha).mpr hfa,
      (satoshiPerByte_eq_feeRate_iff hb).mpr hfb] at hlt
    exact lt_of_feeRate_lt hlt

/-- Fees of transactions of 8192 and 8191 bytes are their rates. -/
theorem satoshiPerByte_iff_paidTx : (paidTx 5 8127).satoshiPerByte.toNat = 5 ∧
    (paidTx 5 8127).feeRate = 5 ∧ (paidTx 9 8126).satoshiPerByte.toNat = 9 ∧
    (paidTx 9 8126).feeRate = 9 := by
  have hlen : (paidTx 5 8127).btx.length = 8192 := length_paidTx 5 8127
  have hlen' : (paidTx 9 8126).btx.length = 8191 := length_paidTx 9 8126
  have hfix : (paidTx 5 8127).AtFixedPoint := Or.inr (by rw [hlen]; decide)
  have hfix' : (paidTx 9 8126).AtFixedPoint := Or.inr (by rw [hlen']; decide)
  obtain ⟨h, h', -⟩ := (satoshiPerByte_iff (paidTx 5 8127) (paidTx 9 8126) (by decide)
    (by decide)).mpr ⟨hfix, hfix'⟩
  have hrate : (paidTx 5 8127).feeRate = 5 := by
    rw [feeRate, hlen]
    decide
  have hrate' : (paidTx 9 8126).feeRate = 9 := by
    rw [feeRate, hlen']
    decide
  exact ⟨h.trans hrate, hrate, h'.trans hrate', hrate'⟩

/-- The blank transaction with a fee: ten bytes. -/
def ofBlank (fee : U64) : Tx := ⟨fee, zeroBytes 32, BitcoinTx.blank⟩

/-- A transaction of 69 bytes: one output with a script of 50. -/
def withOutput (fee : U64) : Tx :=
  ⟨fee, zeroBytes 32, { BitcoinTx.blank with
    outputCount := 1, output := [⟨0, 50, List.replicate 50 0, rfl⟩], length_output := rfl }⟩

theorem length_ofBlank (fee : U64) : (ofBlank fee).btx.length = 10 := by rw [length_eq]; rfl

theorem length_withOutput (fee : U64) : (withOutput fee).btx.length = 69 := by rw [length_eq]; rfl

/-- One satoshi for ten bytes is rated 2 and not 819, and below three satoshi for 69 bytes, which
pay less per byte. -/
theorem satoshiPerByte_misorders :
    (ofBlank 1).satoshiPerByte.toNat = 2 ∧ (ofBlank 1).feeRate = 819 ∧
      (ofBlank 1).satoshiPerByte < (withOutput 3).satoshiPerByte ∧
      ¬ (ofBlank 1).fee.toNat * (withOutput 3).btx.length <
        (withOutput 3).fee.toNat * (ofBlank 1).btx.length := by
  simp only [feeRate, satoshiPerByte, length_ofBlank, length_withOutput]
  decide

end Tx

end BitcoinIblt
