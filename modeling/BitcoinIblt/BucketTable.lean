import BitcoinIblt.DynamicBuckets
import BitcoinIblt.Lib.Binary64

/-!
# The buckets for the slices

The second half of `dynamic_buckets`: the factor of the last entry of a table whose slices are not
more than those expected, and a margin on top, in `double`. The entries come from the simulation of
`utils/monte-carlo.c`. With the slices that the function starts from, the result is between three
halves of the slices and four times as many (`dynamicBuckets_bounds`), so that it is never zero.
-/

namespace BitcoinIblt

open Binary64

/-- `bfors_table`: numbers of slices, and of buckets to find them with a chance of 95%. -/
def bforsTable : List (ℕ × ℕ) :=
  [(1, 5), (2, 9), (3, 12), (4, 15), (5, 17), (6, 20), (7, 22), (8, 24), (9, 27), (10, 29),
    (11, 31), (12, 32), (13, 34), (14, 36), (15, 38), (16, 40), (17, 41), (18, 43), (19, 45),
    (20, 46), (21, 48), (22, 49), (23, 51), (24, 53), (25, 54), (26, 56), (27, 57), (28, 58),
    (29, 60), (30, 61), (40, 75), (50, 88), (60, 100), (70, 112), (80, 124), (90, 137), (100, 149),
    (200, 273), (300, 398), (400, 524), (500, 649), (600, 774), (700, 898), (800, 1023),
    (900, 1147), (1000, 1271), (2000, 2510), (3000, 3745), (4000, 4978), (5000, 6209), (6000, 7440),
    (7000, 8669), (8000, 9898), (9000, 11127), (10000, 12355)]

/-- `SLICE_FACTOR` -/
def sliceFactor : ℕ := 1

/-- `EXTRA_FACTOR`: 1.35 as a `double`. -/
def extraFactor : ℚ := toDouble (27 / 20)

/-- "Find previous entry in table." -/
def bforsEntry (slices : ℕ) : Option (ℕ × ℕ) :=
  (bforsTable.takeWhile fun e => e.1 ≤ slices).getLast?

/-- `factor` after the loop over the table. -/
def bforsFactor (slices : ℕ) : ℚ :=
  match bforsEntry slices with
  | none => 0
  | some e => toDouble ((e.2 : ℚ) / e.1)

/-- `slices * factor * EXTRA_FACTOR`, cut to a `size_t` that it fits into. -/
def bucketsFor (slices : ℕ) : ℕ :=
  ⌊toDouble (toDouble (toDouble slices * bforsFactor slices) * extraFactor)⌋₊

def dynamicBuckets (block mempool : Txmap) : ℕ :=
  bucketsFor (dynamicSlices block mempool * sliceFactor)

/-! ## How many there are -/

/-- The entry for ten slices or more has between 1.2 and 2.9 buckets for each slice. -/
theorem bforsEntry_bounds {slices : ℕ} (h : 10 ≤ slices) :
    ∃ e, bforsEntry slices = some e ∧ 0 < e.1 ∧ 12 * e.1 ≤ 10 * e.2 ∧ 10 * e.2 ≤ 29 * e.1 := by
  have htake : ∀ e ∈ bforsTable.take 10, e.1 ≤ 10 := by decide
  have hmem : (10, 29) ∈ bforsTable.takeWhile fun e => e.1 ≤ slices := by
    rw [← List.take_append_drop 10 bforsTable, List.takeWhile_append_of_pos]
    · exact List.mem_append_left _ (by decide)
    · exact fun e he => decide_eq_true ((htake e he).trans h)
  obtain ⟨init, e, hlast⟩ := (List.eq_nil_or_concat _).resolve_left (List.ne_nil_of_mem hmem)
  rw [List.concat_eq_append] at hlast
  have hsub : (init ++ [e]).Sublist bforsTable := by
    rw [← hlast]
    exact List.takeWhile_sublist _
  have hsorted : bforsTable.Pairwise fun e e' => e.1 < e'.1 := by decide
  -- the last entry that is passed has no fewer slices than any before it
  have hge : 10 ≤ e.1 := by
    rw [hlast, List.mem_append, List.mem_singleton] at hmem
    rcases hmem with hmem | rfl
    · have hlt := (List.pairwise_append.mp (hsorted.sublist hsub)).2.2 _ hmem e
        (List.mem_singleton.mpr rfl)
      exact hlt.le
    · exact le_refl 10
  have hentry : ∀ e ∈ bforsTable, 0 < e.1 ∧ 12 * e.1 ≤ 10 * e.2 ∧
      (10 ≤ e.1 → 10 * e.2 ≤ 29 * e.1) := by decide
  obtain ⟨hpos, hlo, hhi⟩ := hentry e (hsub.subset (List.mem_append_right _ (by simp)))
  refine ⟨e, ?_, hpos, hlo, hhi hge⟩
  unfold bforsEntry
  rw [hlast, List.getLast?_append]
  rfl

theorem bforsFactor_bounds {slices : ℕ} (h : 10 ≤ slices) :
    999 / 1000 * (12 / 10) ≤ bforsFactor slices ∧
      bforsFactor slices ≤ 1001 / 1000 * (29 / 10) := by
  obtain ⟨e, he, hpos, hlo, hhi⟩ := bforsEntry_bounds h
  have hpos' : (0 : ℚ) < e.1 := by exact_mod_cast hpos
  have hlo' : (12 / 10 : ℚ) ≤ (e.2 : ℚ) / e.1 := by
    rw [div_le_div_iff₀ (by norm_num) hpos', mul_comm (e.2 : ℚ)]
    exact_mod_cast hlo
  have hhi' : (e.2 : ℚ) / e.1 ≤ 29 / 10 := by
    rw [div_le_div_iff₀ hpos' (by norm_num), mul_comm (e.2 : ℚ)]
    exact_mod_cast hhi
  have hround := toDouble_bounds (x := (e.2 : ℚ) / e.1) (by linarith)
  unfold bforsFactor
  rw [he]
  dsimp only
  constructor <;> linarith [hround.1, hround.2]

/-- Rounding three times moves the product by little. -/
theorem bucketsFor_bounds {slices : ℕ} (h : 10 ≤ slices) :
    3 * slices ≤ 2 * bucketsFor slices ∧ bucketsFor slices ≤ 4 * slices := by
  have hn : (10 : ℚ) ≤ slices := by exact_mod_cast h
  obtain ⟨hf₁, hf₂⟩ := bforsFactor_bounds h
  obtain ⟨hd₁, hd₂⟩ := toDouble_bounds (x := (slices : ℚ)) (by linarith)
  obtain ⟨hk₁, hk₂⟩ := toDouble_bounds (x := (27 / 20 : ℚ)) (by norm_num)
  have hd : 0 < toDouble (slices : ℚ) := by linarith
  have hf : 0 < bforsFactor slices := by linarith
  have hk : 0 < extraFactor := by
    unfold extraFactor
    linarith
  obtain ⟨hp₁, hp₂⟩ := toDouble_bounds (mul_pos hd hf)
  have hp : 0 < toDouble (toDouble (slices : ℚ) * bforsFactor slices) := by
    linarith [mul_pos hd hf]
  obtain ⟨hr₁, hr₂⟩ := toDouble_bounds (mul_pos hp hk)
  have hlo : (119 / 100 : ℚ) * slices ≤
      toDouble (toDouble (slices : ℚ) * bforsFactor slices) := by
    have hmul : (999 / 1000 * slices : ℚ) * (999 / 1000 * (12 / 10)) ≤
        toDouble slices * bforsFactor slices := mul_le_mul hd₁ hf₁ (by norm_num) hd.le
    linarith
  have hhi : toDouble (toDouble (slices : ℚ) * bforsFactor slices) ≤ (291 / 100 : ℚ) * slices := by
    have hmul : toDouble (slices : ℚ) * bforsFactor slices ≤
        (1001 / 1000 * slices : ℚ) * (1001 / 1000 * (29 / 10)) :=
      mul_le_mul hd₂ hf₂ hf.le (by linarith)
    linarith
  have hlo' : (16 / 10 : ℚ) * slices ≤
      toDouble (toDouble (toDouble (slices : ℚ) * bforsFactor slices) * extraFactor) := by
    have hmul : (119 / 100 * slices : ℚ) * (999 / 1000 * (27 / 20)) ≤
        toDouble (toDouble (slices : ℚ) * bforsFactor slices) * extraFactor :=
      mul_le_mul hlo hk₁ (by norm_num) hp.le
    linarith
  have hhi' : toDouble (toDouble (toDouble (slices : ℚ) * bforsFactor slices) * extraFactor) ≤
      (4 : ℚ) * slices := by
    have hmul : toDouble (toDouble (slices : ℚ) * bforsFactor slices) * extraFactor ≤
        (291 / 100 * slices : ℚ) * (1001 / 1000 * (27 / 20)) :=
      mul_le_mul hhi hk₂ hk.le (by linarith)
    linarith
  unfold bucketsFor
  constructor
  · have hfloor := Nat.lt_floor_add_one
      (toDouble (toDouble (toDouble (slices : ℚ) * bforsFactor slices) * extraFactor))
    have hcast : (3 * slices : ℚ) ≤ 2 * ⌊toDouble (toDouble (toDouble (slices : ℚ) *
        bforsFactor slices) * extraFactor)⌋₊ := by linarith
    exact_mod_cast hcast
  · refine Nat.floor_le_of_le ?_
    push_cast
    exact hhi'

/-- The loop of `dynamic_buckets` only adds. -/
theorem initialSlices_le (block mempool : Txmap) : initialSlices ≤ dynamicSlices block mempool := by
  rw [dynamicSlices_eq]
  exact Nat.le_add_right _ _

/-- **The size of the table.** Whatever the block and the mempool, `dynamic_buckets` returns at
least three buckets for every two slices it expects, and at most four for each; it is never less
than 15, and so never zero. -/
theorem dynamicBuckets_bounds (block mempool : Txmap) :
    3 * dynamicSlices block mempool ≤ 2 * dynamicBuckets block mempool ∧
      dynamicBuckets block mempool ≤ 4 * dynamicSlices block mempool ∧
      15 ≤ dynamicBuckets block mempool := by
  have hinit : 10 ≤ dynamicSlices block mempool := initialSlices_le block mempool
  unfold dynamicBuckets sliceFactor
  rw [Nat.mul_one]
  obtain ⟨hlo, hhi⟩ := bucketsFor_bounds hinit
  exact ⟨hlo, hhi, by omega⟩

end BitcoinIblt
