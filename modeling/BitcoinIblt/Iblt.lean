import BitcoinIblt.RawIblt

/-!
# The difference table and its todo lists

`iblt`: the difference of two raw tables, with two todo lists of buckets that hold a single slice,
one for slices only we have (count -1) and one for slices only they have (count 1). A todo list is
an array of 25 sets; a bucket is filed under the distance of its fragment id from the base of its
id, so that the slices most likely to be real come first.
-/

namespace BitcoinIblt

/-! ## Todo lists -/

/-- `SOON`: offsets up to here have a set of their own. -/
def soon : ℕ := 2 ^ 3

/-- The number of sets of a todo list. -/
def numTodo : ℕ := soon + 16 + 1

/-- The number of bits of `v`. -/
def ilog32 (v : ℕ) : ℕ := Nat.size v

theorem ilog32_le {v n : ℕ} (h : v < 2 ^ n) : ilog32 v ≤ n := Nat.size_le.mpr h

/-- `get_todo`: the set for an offset. -/
def getTodo (fragoff : U16) : Fin numTodo :=
  if h : fragoff.toNat ≤ soon then
    ⟨fragoff.toNat, by unfold numTodo; omega⟩
  else
    ⟨soon + ilog32 (fragoff.toNat - soon), by
      have := ilog32_le (v := fragoff.toNat - soon) (n := 16) (by omega)
      unfold numTodo
      omega⟩

/-- A todo list of buckets. -/
structure IbltTodo (β : Type) where
  todo : Fin numTodo → Finset β
  manuallyRemoved : Bool

namespace IbltTodo

variable {β : Type} [LinearOrder β]

/-- The constructor. It leaves `manually_removed` as it finds it, here `junk`. -/
def new (junk : Bool) : IbltTodo β := ⟨fun _ => ∅, junk⟩

def add (l : IbltTodo β) (fragoff : U16) (bucket : β) : Run (IbltTodo β) :=
  if bucket ∈ l.todo (getTodo fragoff) then
    .error (.runtimeError "Bucket already in todo")
  else
    .ok ⟨Function.update l.todo (getTodo fragoff) (insert bucket (l.todo (getTodo fragoff))),
      l.manuallyRemoved⟩

def del (l : IbltTodo β) (fragoff : U16) (bucket : β) (manual : Bool) : Run (IbltTodo β) :=
  if bucket ∉ l.todo (getTodo fragoff) ∧ l.manuallyRemoved = false then
    .error (.runtimeError "Bucket not in todo")
  else
    .ok ⟨Function.update l.todo (getTodo fragoff) ((l.todo (getTodo fragoff)).erase bucket),
      if manual then true else l.manuallyRemoved⟩

/-- `(size_t)-1` -/
def noTodo : ℕ := 2 ^ 64 - 1

/-- The first set that is not empty, or `noTodo`. -/
def nextTodo (l : IbltTodo β) : ℕ :=
  match (List.finRange numTodo).find? fun i => l.todo i ≠ ∅ with
  | some i => i
  | none => noTodo

/-- `*todo[next_todo].begin()` -/
def next (l : IbltTodo β) (nextTodo : ℕ) : Run β :=
  if h : nextTodo < numTodo then
    if hne : (l.todo ⟨nextTodo, h⟩).Nonempty then .ok ((l.todo ⟨nextTodo, h⟩).min' hne)
    else .error .outOfRange
  else
    .error .outOfRange

end IbltTodo

/-! ## The difference table -/

inductive BucketType
  /-- count -1: in ours, not theirs -/
  | OURS
  /-- count 1: in theirs, not ours -/
  | THEIRS
  | NEITHER
  deriving DecidableEq, Repr

/-- The todo list a bucket with this count belongs to. -/
def bucketType (count : S16) : BucketType :=
  if count = -1 then .OURS else if count = 1 then .THEIRS else .NEITHER

/-- `iblt`. The array `todo` has a list for `OURS` and one for `THEIRS`. -/
structure Iblt (size : ℕ) where
  todo : BucketType → IbltTodo (Fin size)
  riblt : RawIblt size

namespace Iblt

variable (H : Hashes) {size : ℕ}

/-- The todo list of a bucket. -/
def typeAt (d : Iblt size) (n : Fin size) : BucketType := bucketType (d.riblt.counts.get n)

/-- `fragid - frag_base` of the current contents of a bucket. -/
def fragoffAt (d : Iblt size) (n : Fin size) : U16 := (d.riblt.buckets.get n).fragoff H

def addTodoIfSingleton (d : Iblt size) (n : Fin size) : Run (Iblt size) :=
  match d.typeAt n with
  | .NEITHER => .ok d
  | t => do
    let l ← (d.todo t).add (d.fragoffAt H n) n
    return { d with todo := Function.update d.todo t l }

def removeTodoIfSingleton (d : Iblt size) (n : Fin size) : Run (Iblt size) :=
  match d.typeAt n with
  | .NEITHER => .ok d
  | t => do
    let l ← (d.todo t).del (d.fragoffAt H n) n false
    return { d with todo := Function.update d.todo t l }

/-- The body of the loop of `frob_buckets`. -/
def frobOne (s : TxSlice) (dir : ℤ) (d : Iblt size) (n : Fin size) : Run (Iblt size) := do
  let d ← d.removeTodoIfSingleton H n
  addTodoIfSingleton H { d with riblt := d.riblt.frobBucket n s dir } n

def frobBuckets (d : Iblt size) (s : TxSlice) (dir : ℤ) : Run (Iblt size) := do
  let buckets ← RawIblt.selectBuckets H size s
  buckets.foldlM (frobOne H s dir) d

/-- The body of the constructor's last loop: fix up a counter and file the bucket. -/
def subCount (ours : RawIblt size) (d : Iblt size) (n : Fin size) : Run (Iblt size) :=
  let counts := d.riblt.counts.set n (d.riblt.counts.get n - ours.counts.get n) n.isLt
  addTodoIfSingleton H { d with riblt := { d.riblt with counts := counts } } n

/-- The constructor for tables of one size. `junk` is what the storage of the flags held. -/
def subtract (junk : BucketType → Bool) (theirs ours : RawIblt size) : Run (Iblt size) :=
  (List.finRange size).foldlM (subCount H ours)
    ⟨fun t => IbltTodo.new (junk t),
      ⟨Vector.zipWith TxSlice.xor theirs.buckets ours.buckets, theirs.counts⟩⟩

/-- The constructor `iblt(theirs, ours)`. -/
def new {size' : ℕ} (junk : BucketType → Bool) (theirs : RawIblt size) (ours : RawIblt size') :
    Run (Iblt size) :=
  if h : size' = size then subtract H junk theirs (h ▸ ours)
  else .error (.runtimeError "IBLTs not same size")

/-- `next`: a copy of the best single slice and whose it is; `none` stands for `NEITHER`. -/
def next (d : Iblt size) : Run (Option (BucketType × TxSlice)) :=
  let ourBestPrio := (d.todo .OURS).nextTodo
  let theirBestPrio := (d.todo .THEIRS).nextTodo
  if ourBestPrio ≤ theirBestPrio then
    if ourBestPrio = IbltTodo.noTodo then .ok none
    else do
      let n ← (d.todo .OURS).next ourBestPrio
      if d.riblt.counts.get n = -1 then return some (.OURS, d.riblt.buckets.get n)
      else throw .assertion
  else do
    let n ← (d.todo .THEIRS).next theirBestPrio
    if d.riblt.counts.get n = 1 then return some (.THEIRS, d.riblt.buckets.get n)
    else throw .assertion

/-- The bucket `remove_todo` takes off the list. -/
def nextBucket (d : Iblt size) (t : BucketType) : Run (Fin size) :=
  (d.todo t).next (d.todo t).nextTodo

def removeTodo (d : Iblt size) (t : BucketType) (s : TxSlice) : Run (Iblt size) :=
  if t = .NEITHER then .error .outOfRange
  else do
    let n ← d.nextBucket t
    let l ← (d.todo t).del (s.fragoff H) n true
    return { d with todo := Function.update d.todo t l }

def empty (d : Iblt size) : Bool :=
  d.riblt.counts.all (· == 0) && d.riblt.buckets.all TxSlice.empty

/-- `remove_our_tx`: put the slices of a transaction back; also how many there were. -/
def removeOurTx (d : Iblt size) (btx : BitcoinTx) (id : Txid48) : Run (Iblt size × ℕ) := do
  let v ← sliceTx H btx id
  let d ← v.foldlM (fun d s => d.frobBuckets H s 1) d
  return (d, v.length)

def removeTheirSlice (d : Iblt size) (s : TxSlice) : Run (Iblt size) := d.frobBuckets H s (-1)

end Iblt

end BitcoinIblt
