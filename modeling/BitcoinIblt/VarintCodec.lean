import BitcoinIblt.Spelling
import BitcoinIblt.BitsetPointers

/-!
# The varint codec

`add_varint`, `pull_varint` and `varint_len` agree on every number: what is written is read back in
front of anything, has the length that `varint_len` says, and is the shortest spelling of its number
(`varint_codec`). On a part of it the cursor becomes NULL with nothing left, and then no further
pull of any kind (`PullOp`) gets anything but zeros.
-/

namespace BitcoinIblt

open Lockstep StickyParser

/-! ## Pulling from NULL -/

/-- The kinds of pulls. -/
inductive PullOp
  | pull (n : ℕ)
  | copy (n : ℕ)
  | varint
  | le32
  | le64

namespace PullOp

/-- What a pull yields. -/
def Result : PullOp → Type
  | pull n => Option (Bytes n)
  | copy n => Bytes n
  | varint => U64
  | le32 => U32
  | le64 => U64

def run : (op : PullOp) → Pull op.Result
  | pull n => BitcoinIblt.pull n
  | copy n => pullCopy n
  | varint => pullVarint
  | le32 => pullLe32
  | le64 => pullLe64

/-- NULL, zero bytes or the number zero. -/
def zero : (op : PullOp) → op.Result
  | pull _ => none
  | copy n => zeroBytes n
  | varint => (0 : U64)
  | le32 => (0 : U32)
  | le64 => (0 : U64)

theorem run_none (op : PullOp) : op.run none = .ok (op.zero, none) := by
  cases op <;> rfl

/-- Pulls one after the other, with what each of them yields. -/
def runAll : List PullOp → Pull (List (Σ op : PullOp, op.Result))
  | [] => return []
  | op :: ops => do
    let a ← op.run
    let l ← runAll ops
    return ⟨op, a⟩ :: l

theorem runAll_none (ops : List PullOp) :
    runAll ops none = .ok (ops.map fun op => ⟨op, op.zero⟩, none) := by
  induction ops with
  | nil => rfl
  | cons op ops ih =>
    rw [runAll, bind_of_ok op.run_none, bind_of_ok ih]
    rfl

end PullOp

namespace Pointer

variable {mem : ℕ → U8}

/-- The pointer is NULL and nothing is left. -/
def Null (s : Pointer) : Prop := s.p = none ∧ s.len = 0

theorem Null.pull {s : Pointer} (h : s.Null) (n : ℕ) : (pull n).from s = (.ok none, s) := by
  obtain ⟨p, len, derefs⟩ := s
  obtain ⟨rfl, rfl⟩ := h
  cases n with
  | zero => rfl
  | succ n => rfl

theorem Null.pullVarint {s : Pointer} (h : s.Null) : (pullVarint mem).from s = (.ok 0, s) := by
  rw [Pointer.pullVarint, from_bind_ok (h.pull 1)]
  rfl

/-- On the bytes `pre` at `o`, the pointer ends up as the cursor does. -/
theorem pullVarint_null {pre : List U8} {v : U64} (h : BitcoinIblt.pullVarint (some pre) =
    .ok (v, none)) {o : ℕ} (hmem : bytesFrom mem o pre.length = pre) :
    ∃ t, (pullVarint mem).from ⟨some o, pre.length, []⟩ = (.ok v, t) ∧ t.Null := by
  have hstart : (Pointer.mk (some o) pre.length []).Represents mem (o + pre.length) (some pre)
      false := by
    refine ⟨congrArg some hmem.symm, ?_, ?_, rfl, fun _ h => absurd h List.not_mem_nil⟩
    · rintro - ⟨⟩
      rfl
    · rintro ⟨⟩
  rcases pullVarint_lockstep hstart with ⟨a, b, t, hrun, hb, ha, ht⟩ | ⟨e, t, -, he, -⟩
  · rw [h] at hb
    cases hb
    subst ha
    have hp : t.p = none := Option.map_eq_none_iff.mp ht.cursor.symm
    exact ⟨t, hrun, hp, ht.null hp⟩
  · rw [h] at he
    cases he

end Pointer

/-! ## The codec -/

/-- Bytes that are all read as a number spell it. -/
theorem varintBytes_shortest {bs : List U8} {v : U64}
    (h : pullVarint (some bs) = .ok (v, some [])) :
    (varintBytes v).length ≤ bs.length ∧
      (bs.length ≤ (varintBytes v).length → bs = varintBytes v) := by
  obtain ⟨s, rfl, hbs⟩ := consumes_pullVarint h
  rw [List.append_nil] at hbs
  cases hbs
  rw [varintBytes_length]
  exact ⟨s.varintLen_le_length, s.eq_varintBytes⟩

theorem pullVarint_proper {pre : List U8} {v : U64} (hpre : pre <+: varintBytes v)
    (hne : pre ≠ varintBytes v) : pullVarint (some pre) = .ok (0, none) := by
  obtain ⟨a, ha⟩ := (reads_varint v).short pre hpre hne
  rw [ha, pullVarint_none_zero ha]

/-- **The varint codec.** For every number `v`, `add_varint` adds bytes that `pull_varint` takes off
whatever follows them. They are as many as `varint_len` says, and no other spelling of `v` is as
short. On a proper prefix of them `pull_varint` returns zero and leaves NULL with a length of zero,
and so do all pulls that follow. -/
theorem varint_codec (v : U64) : ∃ enc,
    (∀ arr, Id.run (addVarint v addLinearize arr) = arr ++ enc) ∧
    (∀ suffix, pullVarint (some (enc ++ suffix)) = .ok (v, some suffix)) ∧
    enc.length = varintLen v.toNat ∧
    (∀ bs, pullVarint (some bs) = .ok (v, some []) →
      enc.length ≤ bs.length ∧ (bs.length ≤ enc.length → bs = enc)) ∧
    ∀ pre, pre <+: enc → pre ≠ enc →
      (pullVarint (some pre) = .ok (0, none) ∧
        ∀ ops, PullOp.runAll ops none = .ok (ops.map fun op => ⟨op, op.zero⟩, none)) ∧
      ∀ mem o, bytesFrom mem o pre.length = pre →
        ∃ t, (Pointer.pullVarint mem).from ⟨some o, pre.length, []⟩ = (.ok 0, t) ∧ t.Null ∧
          (∀ n, (Pointer.pull n).from t = (.ok none, t)) ∧
          (Pointer.pullVarint mem).from t = (.ok 0, t) := by
  refine ⟨varintBytes v, fun _ => rfl, (reads_varint v).full, varintBytes_length v,
    fun bs => varintBytes_shortest, fun pre hpre hne => ?_⟩
  have hnull := pullVarint_proper hpre hne
  refine ⟨⟨hnull, PullOp.runAll_none⟩, fun mem o hmem => ?_⟩
  obtain ⟨t, ht, hn⟩ := Pointer.pullVarint_null hnull hmem
  exact ⟨t, ht, hn, hn.pull, hn.pullVarint⟩

end BitcoinIblt
