import BitcoinIblt.Difference
import BitcoinIblt.Lib.Reachable

/-!
# Runs of calls on a difference table

A caller may call `next`, `remove_our_tx` and `remove_their_slice` in any order, and `remove_todo`
with what `next` has just returned. In every such run the todo lists stay in step with the table,
and no call throws or fails an assertion (`todo_lists_in_step`).
-/

namespace BitcoinIblt

open Transition

/-- The public functions that a caller uses on a difference table. -/
inductive Call
  | next
  | removeOurTx (btx : BitcoinTx) (id : Txid48)
  | removeTheirSlice (s : TxSlice)
  | removeTodo (t : BucketType) (s : TxSlice)

/-- A difference table in use. -/
structure Session (size : ℕ) where
  diff : Iblt size
  /-- what `next` returned, if that was the last call -/
  last : Option (BucketType × TxSlice)
  /-- the buckets that `remove_todo` took out since they were last frobbed -/
  taken : Finset (Fin size)

/-- What the caller has to see to. -/
def Call.Allowed (last : Option (BucketType × TxSlice)) : Call → Prop
  | .next => True
  | .removeOurTx btx _ => Sliceable btx
  | .removeTheirSlice _ => True
  | .removeTodo t s => last = some (t, s)

namespace Session

variable (H : Hashes) {size : ℕ}

def perform (s : Session size) : Call → Run (Session size)
  | .next => do
    let last ← s.diff.next
    return ⟨s.diff, last, s.taken⟩
  | .removeOurTx btx id => do
    let (d, _) ← s.diff.removeOurTx H btx id
    return ⟨d, none, s.taken.filter fun n => ∀ x ∈ slicesOf H btx id, RawIblt.hits H x n = 0⟩
  | .removeTheirSlice x => do
    let d ← s.diff.removeTheirSlice H x
    return ⟨d, none, s.taken.filter fun n => RawIblt.hits H x n = 0⟩
  | .removeTodo t x => do
    let n ← s.diff.nextBucket t
    let d ← s.diff.removeTodo H t x
    return ⟨d, none, insert n s.taken⟩

/-- A new difference table, before any call. -/
def Start (junk : BucketType → Bool) (theirs ours : RawIblt size) (s : Session size) : Prop :=
  ∃ d, Iblt.new H junk theirs ours = .ok d ∧ s = ⟨d, none, ∅⟩

def Step (s s' : Session size) : Prop := ∃ c : Call, c.Allowed s.last ∧ s.perform H c = .ok s'

/-- What every run keeps. -/
structure Inv (s : Session size) : Prop where
  inStep : Iblt.InStep H s.diff s.taken
  last : ∀ t x, s.last = some (t, x) → s.diff.next = .ok (some (t, x))

variable {H} {s s' : Session size}

/-- An allowed call returns, and keeps the invariant. -/
theorem Inv.perform (hsize : 0 < size) (h : Inv H s) {c : Call} (hc : c.Allowed s.last) :
    ∃ s', s.perform H c = .ok s' ∧ Inv H s' := by
  cases c with
  | next =>
    obtain ⟨r, hr⟩ : ∃ r, s.diff.next = .ok r := by
      rcases h.inStep.sync.next with ⟨hn, -⟩ | ⟨n, -, -, hn, -⟩
      · exact ⟨_, hn⟩
      · exact ⟨_, hn⟩
    exact ⟨⟨s.diff, r, s.taken⟩, by rw [Session.perform, hr]; rfl, h.inStep,
      fun t x hl => by rw [hr]; exact congrArg Except.ok hl⟩
  | removeOurTx btx id =>
    obtain ⟨d, hd, -, hs⟩ := h.inStep.removeOurTx hsize id hc
    exact ⟨_, by rw [Session.perform, hd]; rfl, hs, fun t x hl => by cases hl⟩
  | removeTheirSlice x =>
    obtain ⟨d, hd, -, hs⟩ := h.inStep.removeTheirSlice hsize x
    exact ⟨_, by rw [Session.perform, hd]; rfl, hs, fun t x hl => by cases hl⟩
  | removeTodo t x =>
    have hnext := h.last t x hc
    rcases h.inStep.sync.next with ⟨hn, -⟩ | ⟨n, hne, hnout, hn, hbucket, -⟩
    · rw [hn] at hnext
      cases hnext
    · -- the bucket `remove_todo` finds is the one `next` returned the contents of
      rw [hn] at hnext
      cases hnext
      obtain ⟨d, hd, -, hs⟩ := h.inStep.removeTodo hne hnout hbucket
      exact ⟨_, by rw [Session.perform, hbucket, ok_bind, hd]; rfl, hs,
        fun t x hl => by cases hl⟩

theorem Inv.of_reachable (hsize : 0 < size) {junk : BucketType → Bool} {theirs ours : RawIblt size}
    (h : Reachable (Start H junk theirs ours) (Step H) s) : Inv H s := by
  refine h.invariant (Inv H) (fun s hs => ?_) fun s s' hs hstep => ?_
  · obtain ⟨d, hd, rfl⟩ := hs
    obtain ⟨d', hd', -, hsync⟩ := Iblt.new_ok H junk theirs ours
    rw [hd] at hd'
    cases hd'
    exact ⟨hsync, fun t x hl => by cases hl⟩
  · obtain ⟨c, hc, hperf⟩ := hstep
    obtain ⟨t, ht, hinv⟩ := hs.perform hsize hc
    rw [hperf] at ht
    cases ht
    exact hinv

end Session

/-- **Todo lists.** In every run of allowed calls, on tables with any contents, a bucket is on the
list of ours (theirs) exactly if its count is -1 (1) and `remove_todo` has not taken it out since
it was last frobbed; it is then in the one set that its contents say. No allowed call throws or
fails an assertion. -/
theorem todo_lists_in_step (H : Hashes) {size : ℕ} (hsize : 0 < size) (junk : BucketType → Bool)
    (theirs ours : RawIblt size) :
    (∃ d, Iblt.new H junk theirs ours = .ok d) ∧
    ∀ s, Reachable (Session.Start H junk theirs ours) (Session.Step H) s →
      (∀ n cls, n ∈ (s.diff.todo .OURS).todo cls ↔
        s.diff.riblt.counts.get n = -1 ∧ cls = getTodo (s.diff.fragoffAt H n) ∧ n ∉ s.taken) ∧
      (∀ n cls, n ∈ (s.diff.todo .THEIRS).todo cls ↔
        s.diff.riblt.counts.get n = 1 ∧ cls = getTodo (s.diff.fragoffAt H n) ∧ n ∉ s.taken) ∧
      ∀ c : Call, c.Allowed s.last → ∃ s', s.perform H c = .ok s' := by
  refine ⟨?_, fun s hs => ?_⟩
  · obtain ⟨d, hd, -⟩ := Iblt.new_ok H junk theirs ours
    exact ⟨d, hd⟩
  · have hinv := Session.Inv.of_reachable hsize hs
    refine ⟨fun n cls => ?_, fun n cls => ?_, fun c hc => ?_⟩
    · rw [hinv.inStep.sync .OURS (by decide), Iblt.typeAt, Iblt.bucketType_eq_ours]
    · rw [hinv.inStep.sync .THEIRS (by decide), Iblt.typeAt, Iblt.bucketType_eq_theirs]
    · obtain ⟨s', hs', -⟩ := hinv.perform hsize hc
      exact ⟨s', hs'⟩

theorem todo_lists_in_step_headTxs : ∃ (theirs ours : RawIblt 6) (d : Iblt 6),
    RawIblt.ofTxmap headHashes 6 1 leftTxs = .ok theirs ∧
      RawIblt.ofTxmap headHashes 6 1 rightTxs = .ok ours ∧
      Iblt.new headHashes (fun _ => true) theirs ours = .ok d ∧
      (∀ n : Fin 6, n.val < 3 → n ∈ (d.todo .THEIRS).todo (getTodo (d.fragoffAt headHashes n))) ∧
      (∀ n : Fin 6, 3 ≤ n.val → n ∈ (d.todo .OURS).todo (getTodo (d.fragoffAt headHashes n))) ∧
      ∃ t x s, d.next = .ok (some (t, x)) ∧
        Session.perform headHashes ⟨d, some (t, x), ∅⟩ (.removeTodo t x) = .ok s := by
  obtain ⟨theirs, ours, d, htheirs, hours, hd, hcount⟩ := headTxs_difference
  obtain ⟨-, hrun⟩ := todo_lists_in_step headHashes (show 0 < 6 by decide) (fun _ => true)
    theirs ours
  have hstart : Reachable (Session.Start headHashes (fun _ => true) theirs ours)
      (Session.Step headHashes) ⟨d, none, ∅⟩ := .start ⟨d, hd, rfl⟩
  obtain ⟨hours', htheirs', hcalls⟩ := hrun _ hstart
  refine ⟨theirs, ours, d, htheirs, hours, hd, fun n hn => ?_, fun n hn => ?_, ?_⟩
  · exact (htheirs' n _).mpr ⟨(hcount n).trans (if_pos hn), rfl, Finset.notMem_empty n⟩
  · exact (hours' n _).mpr
      ⟨(hcount n).trans (if_neg (Nat.not_lt.mpr hn)), rfl, Finset.notMem_empty n⟩
  · obtain ⟨s, hs⟩ := hcalls .next trivial
    obtain ⟨last, hnext, hlast⟩ := of_bind_ok hs
    obtain rfl : ⟨d, last, ∅⟩ = s := Except.ok.inj hlast
    obtain ⟨d', hd', -, hsync⟩ := Iblt.new_ok headHashes (fun _ => true) theirs ours
    obtain rfl : d' = d := Except.ok.inj (hd'.symm.trans hd)
    cases last with
    | none =>
      -- bucket 0 counts 1, so that there is something to return
      have hzero := hsync.all_neither hnext 0
      rw [Iblt.typeAt, hcount 0] at hzero
      exact absurd hzero (by decide)
    | some r =>
      obtain ⟨-, -, hcalls⟩ := hrun _ (hstart.next ⟨.next, trivial, hs⟩)
      obtain ⟨s, hs⟩ := hcalls (.removeTodo r.1 r.2) rfl
      exact ⟨r.1, r.2, s, hnext, hs⟩

end BitcoinIblt
