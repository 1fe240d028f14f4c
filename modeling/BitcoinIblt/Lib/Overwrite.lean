import Mathlib

/-!
# Overwriting a segment of a list

`overwrite l p d` is `l` with the elements from position `p` on replaced by `d`: what `memcpy` does
to an array. Overwriting with adjacent pieces one after the other is overwriting with their
concatenation (`overwrite_overwrite`). An array of blocks of one length is written block by block
(`foldl_overwrite`) and read block by block (`block_of_flatMap`).
-/

variable {α : Type}

/-- `memcpy(l + p, d, d.length)` -/
def overwrite (l : List α) (p : ℕ) (d : List α) : List α :=
  l.take p ++ d ++ l.drop (p + d.length)

theorem overwrite_length {l : List α} {p : ℕ} {d : List α} (h : p + d.length ≤ l.length) :
    (overwrite l p d).length = l.length := by
  simp only [overwrite, List.length_append, List.length_take, List.length_drop]
  omega

@[simp] theorem overwrite_nil (l : List α) (p : ℕ) : overwrite l p [] = l := by
  simp [overwrite]

/-- Adjacent pieces written one after the other. -/
theorem overwrite_overwrite {l : List α} {p : ℕ} {d₁ : List α} (d₂ : List α)
    (h : p + d₁.length ≤ l.length) :
    overwrite (overwrite l p d₁) (p + d₁.length) d₂ = overwrite l p (d₁ ++ d₂) := by
  have hlen : (l.take p ++ d₁).length = p + d₁.length := by
    rw [List.length_append, List.length_take, Nat.min_eq_left (by omega)]
  unfold overwrite
  rw [List.take_append_of_le_length hlen.ge, List.take_of_length_le hlen.le,
    List.drop_append, hlen, List.drop_eq_nil_of_le (by omega), List.drop_drop]
  simp only [List.append_assoc, List.nil_append, List.length_append]
  congr 4
  omega

/-- Overwriting inside the middle part of a list. -/
theorem overwrite_middle (a : List α) {b : List α} (c : List α) {p : ℕ} {d : List α}
    (h : p + d.length ≤ b.length) :
    overwrite (a ++ b ++ c) (a.length + p) d = a ++ overwrite b p d ++ c := by
  unfold overwrite
  rw [List.append_assoc a b c, List.take_length_add_append,
    List.take_append_of_le_length (by omega), Nat.add_assoc, List.drop_length_add_append,
    List.drop_append_of_le_length h]
  simp only [List.append_assoc]

/-- Overwriting from the start. -/
theorem overwrite_zero (l d : List α) : overwrite l 0 d = d ++ l.drop d.length := by
  simp [overwrite]

/-! ## Blocks -/

section Blocks

variable {β : Type} {f : β → List α} {k : ℕ} (hf : ∀ b, (f b).length = k)

include hf

theorem length_flatMap_blocks (l : List β) : (l.flatMap f).length = l.length * k := by
  induction l with
  | nil => simp
  | cons b l ih => rw [List.flatMap_cons, List.length_append, hf, ih, List.length_cons]; ring

/-- Writing the blocks one by one is writing their concatenation. -/
theorem foldl_overwrite (l : List β) (off j : ℕ) (vec : List α)
    (h : off + (j + l.length) * k ≤ vec.length) :
    (l.zipIdx j).foldl (fun vec e => overwrite vec (off + e.2 * k) (f e.1)) vec =
      overwrite vec (off + j * k) (l.flatMap f) := by
  induction l generalizing j vec with
  | nil => simp
  | cons b l ih =>
    have hone : off + j * k + (f b).length = off + (j + 1) * k := by rw [hf]; ring
    have hle : off + (j + 1) * k ≤ vec.length := by
      refine le_trans (Nat.add_le_add_left (Nat.mul_le_mul_right k ?_) off) h
      rw [List.length_cons]
      omega
    have hwritten := overwrite_length (d := f b) (hone.trans_le hle)
    rw [List.zipIdx_cons, List.foldl_cons, ih]
    · rw [← hone, overwrite_overwrite _ (hone.trans_le hle), List.flatMap_cons]
    · rw [hwritten]
      rwa [List.length_cons, ← Nat.add_assoc, Nat.add_right_comm] at h

/-- The block at `i`. -/
theorem block_of_flatMap (l : List β) {i : ℕ} (hi : i < l.length) (rest : List α) :
    ((l.flatMap f ++ rest).drop (i * k)).take k = f l[i] := by
  induction l generalizing i with
  | nil => simp at hi
  | cons b l ih =>
    rw [List.flatMap_cons, List.append_assoc]
    cases i with
    | zero => simp [hf]
    | succ i =>
      have hdrop : (f b ++ (l.flatMap f ++ rest)).drop ((i + 1) * k) =
          (l.flatMap f ++ rest).drop (i * k) := by
        rw [Nat.succ_mul, Nat.add_comm, ← hf b, List.drop_length_add_append]
      rw [hdrop, ih (by simpa using hi)]
      rfl

end Blocks
