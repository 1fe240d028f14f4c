import BitcoinIblt.Difference
import BitcoinIblt.Lib.Reachable

/-!
# The best single slice

`next` reads its answer off two arrays of sets that every removal has updated a little. In every
state that removals lead to, it is what a scan of all buckets would find: the single slice that
comes `Before` all others, and `NEITHER` if there is none (`next_best`).
-/

namespace BitcoinIblt

open Transition

/-- A smaller offset is in no larger class. -/
theorem getTodo_mono {a b : U16} (h : a ≤ b) : getTodo a ≤ getTodo b := by
  have hle : a.toNat ≤ b.toNat := BitVec.le_def.mp h
  rw [Fin.le_def]
  unfold getTodo
  split_ifs with ha hb
  · exact hle
  · exact ha.trans (Nat.le_add_right _ _)
  · omega
  · exact Nat.add_le_add_left (Nat.size_le_size (Nat.sub_le_sub_right hle soon)) soon

/-- The two ways to take slices off a difference table. -/
inductive Removal
  | ourTx (btx : BitcoinTx) (id : Txid48)
  | theirSlice (s : TxSlice)

namespace Iblt

variable (H : Hashes) {size : ℕ}

def perform (d : Iblt size) : Removal → Run (Iblt size)
  | .ourTx btx id => do
    let (d, _) ← d.removeOurTx H btx id
    return d
  | .theirSlice s => d.removeTheirSlice H s

/-- The tables that removals lead to from the difference of two raw tables. -/
def Removed (junk : BucketType → Bool) (theirs ours : RawIblt size) : Iblt size → Prop :=
  Reachable (fun d => Iblt.new H junk theirs ours = .ok d) fun d d' => ∃ r, d.perform H r = .ok d'

variable {H} {d d' : Iblt size}

theorem InStep.perform (hsize : 0 < size) (h : InStep H d ∅) {r : Removal}
    (hr : d.perform H r = .ok d') : InStep H d' ∅ := by
  cases r with
  | ourTx btx id =>
    obtain ⟨⟨d₁, n⟩, hremove, hret⟩ := of_bind_ok hr
    cases hret
    -- what returns has cut the transaction into slices
    obtain ⟨v, hv, -⟩ := of_bind_ok hremove
    obtain ⟨d₂, hd₂, -, hs⟩ := h.removeOurTx hsize id (sliceable_of_sliceTx id hv)
    rw [hremove] at hd₂
    cases hd₂
    rwa [Finset.filter_empty] at hs
  | theirSlice s =>
    obtain ⟨d₂, hd₂, -, hs⟩ := h.removeTheirSlice hsize s
    have heq : d' = d₂ := Except.ok.inj (hr.symm.trans hd₂)
    rw [Finset.filter_empty] at hs
    exact heq ▸ hs

theorem Removed.inStep (hsize : 0 < size) {junk : BucketType → Bool} {theirs ours : RawIblt size}
    (h : Removed H junk theirs ours d) : InStep H d ∅ := by
  refine h.invariant (fun d => InStep H d ∅) (fun d hd => ?_) fun d d' hd hstep => ?_
  · obtain ⟨d₁, hd₁, -, hs⟩ := new_ok H junk theirs ours
    rw [hd] at hd₁
    cases hd₁
    exact hs
  · obtain ⟨r, hr⟩ := hstep
    exact hd.perform hsize hr

/-- A bucket that counts one slice, of either side. -/
def Single (d : Iblt size) (n : Fin size) : Prop :=
  d.riblt.counts.get n = 1 ∨ d.riblt.counts.get n = -1

theorem single_iff {n : Fin size} : d.Single n ↔ d.typeAt n ≠ .NEITHER := by
  unfold Single typeAt
  rw [← bucketType_eq_ours, ← bucketType_eq_theirs]
  cases bucketType (d.riblt.counts.get n) <;> simp

/-- **The best slice.** In every state that removals lead to, `next` returns, and its answer is that
of a scan of all buckets. A bucket's class does not decrease with its offset. -/
theorem next_best (H : Hashes) {size : ℕ} (hsize : 0 < size) {junk : BucketType → Bool}
    {theirs ours : RawIblt size} {d : Iblt size} (h : Removed H junk theirs ours d) :
    (d.next = .ok none ↔ ∀ n, ¬d.Single n) ∧
    ((∃ n, d.Single n) → ∃ n, d.Single n ∧
      d.next = .ok (some (d.typeAt n, d.riblt.buckets.get n)) ∧
      ∀ m, d.Single m → d.Before H n m) ∧
    ∀ a b : U16, a ≤ b → getTodo a ≤ getTodo b := by
  have hs := h.inStep hsize
  simp only [single_iff]
  refine ⟨⟨fun hnone n hn => hn (hs.all_neither hnone n), fun hall => ?_⟩, fun ⟨m, hm⟩ => ?_,
    fun a b => getTodo_mono⟩
  · rcases hs.sync.next with ⟨hnone, -⟩ | ⟨n, hn, -⟩
    · exact hnone
    · exact absurd hn (hall n)
  · rcases hs.sync.next with ⟨hnone, -⟩ | ⟨n, hn, -, hnext, -, hbest⟩
    · exact absurd (hs.all_neither hnone m) hm
    · exact ⟨n, hn, hnext, fun m hm => hbest m hm (Finset.notMem_empty m)⟩

theorem next_best_headTxs : ∃ (theirs ours : RawIblt 6) (d : Iblt 6),
    RawIblt.ofTxmap headHashes 6 1 leftTxs = .ok theirs ∧
      RawIblt.ofTxmap headHashes 6 1 rightTxs = .ok ours ∧
      Removed headHashes (fun _ => true) theirs ours d ∧
      ∃ n, d.next = .ok (some (d.typeAt n, d.riblt.buckets.get n)) ∧
        ∀ m, d.Before headHashes n m := by
  obtain ⟨theirs, ours, d, htheirs, hours, hd, hcount⟩ := headTxs_difference
  have h : Removed headHashes (fun _ => true) theirs ours d := .start hd
  have hsingle : ∀ n, d.Single n := by
    intro n
    unfold Single
    rw [hcount n]
    split_ifs
    · exact Or.inl rfl
    · exact Or.inr rfl
  obtain ⟨n, -, hnext, hbest⟩ := (next_best headHashes (show 0 < 6 by decide) h).2.1 ⟨0, hsingle 0⟩
  exact ⟨theirs, ours, d, htheirs, hours, h, n, hnext, fun m => hbest m (hsingle m)⟩

end Iblt

end BitcoinIblt
