import Mathlib

/-!
# Hashing a message block by block

A hash of a long message compresses one block of `n` elements after the other into a state
(`chain`). A hasher that is given the message in pieces keeps the state of the whole blocks and the
rest it could not compress yet; `Absorbed` says that it stands where the message so far leads. It
may keep a piece (`Absorbed.keep`), complete a block (`Absorbed.fill`) or compress a block straight
from its input (`Absorbed.block`).
-/

namespace BlockHash

variable {σ α : Type} (compress : σ → List α → σ) (n : ℕ)

/-- The state after the first `k` blocks of `l`. -/
def chain : ℕ → σ → List α → σ
  | 0, s, _ => s
  | k + 1, s, l => chain k (compress s (l.take n)) (l.drop n)

/-- What follows the `k` blocks does not matter. -/
theorem chain_append_right {k : ℕ} (s : σ) {l : List α} (r : List α) (h : k * n ≤ l.length) :
    chain compress n k s (l ++ r) = chain compress n k s l := by
  induction k generalizing s l with
  | zero => rfl
  | succ k ih =>
    have hn : n ≤ l.length := (Nat.le_mul_of_pos_left n k.succ_pos).trans h
    have hrest : k * n ≤ (l.drop n).length := by
      rw [Nat.succ_mul] at h
      rw [List.length_drop]
      omega
    rw [chain, chain, List.take_append_of_le_length hn, List.drop_append_of_le_length hn]
    exact ih _ hrest

/-- One more block. -/
theorem chain_succ_append {k : ℕ} (s : σ) {l b : List α} (hl : l.length = k * n)
    (hb : b.length = n) :
    chain compress n (k + 1) s (l ++ b) = compress (chain compress n k s l) b := by
  induction k generalizing s l with
  | zero =>
    obtain rfl : l = [] := List.eq_nil_of_length_eq_zero (by simpa using hl)
    rw [List.nil_append, chain, chain, chain, List.take_of_length_le hb.le]
  | succ k ih =>
    rw [Nat.succ_mul] at hl
    have hn : n ≤ l.length := by omega
    have hrest : (l.drop n).length = k * n := by
      rw [List.length_drop]
      omega
    rw [chain, List.take_append_of_le_length hn, List.drop_append_of_le_length hn, ih _ hrest,
      chain]

/-- `s` is the state after the whole blocks of `m`, and `rest` is what follows them. -/
structure Absorbed (s₀ : σ) (m : List α) (s : σ) (rest : List α) : Prop where
  state : s = chain compress n (m.length / n) s₀ m
  rest : rest = m.drop (m.length / n * n)

namespace Absorbed

variable {compress n} {s₀ s : σ} {m rest p : List α}

theorem nil (s₀ : σ) : Absorbed compress n s₀ [] s₀ [] where
  state := by rw [List.length_nil, Nat.zero_div, chain]
  rest := by rw [List.drop_nil]

theorem length_rest (h : Absorbed compress n s₀ m s rest) : rest.length = m.length % n := by
  rw [h.rest, List.length_drop, Nat.mod_eq_sub_div_mul]

/-- The message is its whole blocks and the rest. -/
theorem split (h : Absorbed compress n s₀ m s rest) : m.take (m.length / n * n) ++ rest = m := by
  rw [h.rest, List.take_append_drop]

theorem state_take (h : Absorbed compress n s₀ m s rest) :
    s = chain compress n (m.length / n) s₀ (m.take (m.length / n * n)) := by
  have hle : m.length / n * n ≤ (m.take (m.length / n * n)).length := by
    rw [List.length_take, Nat.min_eq_left (Nat.div_mul_le_self _ _)]
  have hpre := chain_append_right compress n s₀ (m.drop (m.length / n * n)) hle
  rw [List.take_append_drop] at hpre
  rw [h.state, hpre]

/-- A piece that does not complete the block is kept. -/
theorem keep (h : Absorbed compress n s₀ m s rest) (hlt : rest.length + p.length < n) :
    Absorbed compress n s₀ (m ++ p) s (rest ++ p) := by
  have hdiv : (m ++ p).length / n = m.length / n := by
    have hm := Nat.div_add_mod m.length n
    have hr := h.length_rest
    rw [List.length_append, ← hm, Nat.add_assoc, Nat.mul_add_div (by omega),
      Nat.div_eq_of_lt (by omega : m.length % n + p.length < n), Nat.add_zero, hm]
  have hle := Nat.div_mul_le_self m.length n
  constructor
  · rw [hdiv, chain_append_right compress n s₀ p hle]
    exact h.state
  · rw [hdiv, List.drop_append_of_le_length hle, ← h.rest]

/-- A piece that completes the block has it compressed. -/
theorem fill (h : Absorbed compress n s₀ m s rest) (hn : 0 < n) (hp : rest.length + p.length = n) :
    Absorbed compress n s₀ (m ++ p) (compress s (rest ++ p)) [] := by
  have hm := Nat.div_add_mod m.length n
  have hr := h.length_rest
  have hlen : (m ++ p).length = (m.length / n + 1) * n := by
    rw [List.length_append, Nat.succ_mul, Nat.mul_comm]
    omega
  have hdiv : (m ++ p).length / n = m.length / n + 1 := by
    rw [hlen, Nat.mul_div_cancel _ hn]
  have hblock : (rest ++ p).length = n := by rw [List.length_append, hp]
  have htake : (m.take (m.length / n * n)).length = m.length / n * n := by
    rw [List.length_take, Nat.min_eq_left (Nat.div_mul_le_self _ _)]
  constructor
  · rw [hdiv, h.state_take, ← chain_succ_append compress n s₀ htake hblock, ← List.append_assoc,
      h.split]
  · rw [hdiv, ← hlen, List.drop_length]

/-- With nothing kept, a block is compressed where it stands. -/
theorem block (h : Absorbed compress n s₀ m s []) (hn : 0 < n) (hp : p.length = n) :
    Absorbed compress n s₀ (m ++ p) (compress s p) [] := by
  have hfill := h.fill (p := p) hn (by rw [List.length_nil, Nat.zero_add, hp])
  rwa [List.nil_append] at hfill

end Absorbed

end BlockHash
