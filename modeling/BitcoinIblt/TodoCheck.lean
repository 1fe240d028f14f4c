import BitcoinIblt.IbltSync

/-!
# The check of a todo list

A todo list throws when it is to remove a bucket it does not have, until a bucket has been removed
by hand. It keeps that in `manually_removed`, which the constructor does not set: the check is
armed as it should be just when the storage held `false` before (`del_checks_iff`).
-/

namespace BitcoinIblt

/-- The calls that change a todo list. -/
inductive TodoCall (β : Type)
  | add (fragoff : U16) (bucket : β)
  | del (fragoff : U16) (bucket : β) (manual : Bool)

namespace TodoCall

variable {β : Type} [LinearOrder β]

def perform (l : IbltTodo β) : TodoCall β → Run (IbltTodo β)
  | .add fragoff bucket => l.add fragoff bucket
  | .del fragoff bucket manual => l.del fragoff bucket manual

/-- `del(.., true)` -/
def manual : TodoCall β → Bool
  | .add _ _ => false
  | .del _ _ manual => manual

/-- A call that does not throw sets the flag if it is a manual removal. -/
theorem flag_of_perform {l l' : IbltTodo β} {c : TodoCall β} (h : perform l c = .ok l') :
    l'.manuallyRemoved = (c.manual || l.manuallyRemoved) := by
  cases c with
  | add fragoff bucket =>
    rw [perform, IbltTodo.add] at h
    split_ifs at h
    cases h
    rfl
  | del fragoff bucket manual =>
    rw [perform, IbltTodo.del] at h
    split at h
    · cases h
    · cases h
      cases manual <;> rfl

theorem flag_of_foldlM {calls : List (TodoCall β)} {l l' : IbltTodo β}
    (h : calls.foldlM perform l = .ok l') :
    l'.manuallyRemoved = (calls.any manual || l.manuallyRemoved) := by
  induction calls generalizing l with
  | nil =>
    cases h
    rfl
  | cons c calls ih =>
    rw [List.foldlM_cons] at h
    obtain ⟨l₁, h₁, h⟩ := of_bind_ok h
    rw [ih h, flag_of_perform h₁, List.any_cons]
    cases c.manual <;> simp

end TodoCall

namespace IbltTodo

variable {β : Type} [LinearOrder β]

theorem del_throws_iff {l : IbltTodo β} {fragoff : U16} {bucket : β} {manual : Bool} :
    l.del fragoff bucket manual = .error (.runtimeError "Bucket not in todo") ↔
      bucket ∉ l.todo (getTodo fragoff) ∧ l.manuallyRemoved = false := by
  unfold del
  split_ifs with h
  · exact iff_of_true rfl h
  · exact iff_of_false nofun h

/-- The next removal throws just when the bucket is missing and none was removed by hand. -/
def Checks (l : IbltTodo β) (calls : List (TodoCall β)) (fragoff : U16) (bucket : β) : Prop :=
  ∀ manual, l.del fragoff bucket manual = .error (.runtimeError "Bucket not in todo") ↔
    bucket ∉ l.todo (getTodo fragoff) ∧ ∀ c ∈ calls, c.manual = false

/-- After every sequence of calls, the check is as it should be if and only if the flag was `false`
from the start, or a bucket has been removed by hand, or the bucket is there. -/
theorem del_checks_iff {junk : Bool} {calls : List (TodoCall β)} {l : IbltTodo β}
    (h : calls.foldlM TodoCall.perform (new junk) = .ok l) (fragoff : U16) (bucket : β) :
    l.Checks calls fragoff bucket ↔
      junk = false ∨ (∃ c ∈ calls, c.manual = true) ∨ bucket ∈ l.todo (getTodo fragoff) := by
  have hflag : l.manuallyRemoved = false ↔ (∀ c ∈ calls, c.manual = false) ∧ junk = false := by
    rw [TodoCall.flag_of_foldlM h, Bool.or_eq_false_iff, List.any_eq_false]
    simp only [Bool.not_eq_true]
    rfl
  have hsome : (∃ c ∈ calls, c.manual = true) ↔ ¬∀ c ∈ calls, c.manual = false := by
    simp
  unfold Checks
  simp only [del_throws_iff, hflag, hsome, forall_const]
  tauto

/-- The list after a first bucket has been added at offset 0. -/
def oneBucket : IbltTodo ℕ := ⟨Function.update (fun _ => ∅) (getTodo 0) {0}, false⟩

theorem del_checks_oneBucket : [TodoCall.add 0 0].foldlM TodoCall.perform (new false) =
    .ok oneBucket ∧ oneBucket.Checks [TodoCall.add 0 0] 1 1 := by
  have hrun : [TodoCall.add 0 0].foldlM TodoCall.perform (new false) = .ok oneBucket := rfl
  exact ⟨hrun, (del_checks_iff hrun 1 1).mpr (Or.inl rfl)⟩

/-- A new list, in storage where the flag was set, has no bucket but does not throw. -/
theorem del_unchecked : (new true : IbltTodo ℕ).del 0 0 false =
      .ok ⟨Function.update (fun _ => ∅) (getTodo 0) (Finset.erase ∅ 0), true⟩ ∧
    ¬(new true : IbltTodo ℕ).Checks [] 0 0 := by
  refine ⟨rfl, fun h => ?_⟩
  have hthrows := (h false).mpr ⟨Finset.notMem_empty 0, fun c hc => absurd hc List.not_mem_nil⟩
  cases hthrows

end IbltTodo

end BitcoinIblt
