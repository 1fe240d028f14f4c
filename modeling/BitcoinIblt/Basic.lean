import Mathlib
import BitcoinIblt.Lib.Passes

/-!
# Machine words, faults and the functions outside the model

The programs are C++ filters compiled with `-DIBLT_SIZE=64`. Words are `BitVec`, so that every
wrap-around of the source is a wrap-around here. What can go wrong in a run besides returning
`false` is a `Fault`: an exception, a failed `assert`, or an access the language leaves undefined.
-/

namespace BitcoinIblt

abbrev U8 := BitVec 8
abbrev U16 := BitVec 16
abbrev U32 := BitVec 32
abbrev U64 := BitVec 64
abbrev S16 := BitVec 16

/-- An array of `n` bytes. -/
abbrev Bytes (n : ℕ) := { l : List U8 // l.length = n }

/-- `memset(copy, 0, n)` -/
def zeroBytes (n : ℕ) : Bytes n := ⟨List.replicate n 0, List.length_replicate⟩

/-- `IBLT_SIZE`: the content bytes of one slice. -/
def ibltSize : ℕ := 64

/-- The ways a run stops without a result. -/
inductive Fault
  /-- `std::runtime_error` -/
  | runtimeError (what : String)
  /-- `std::invalid_argument` -/
  | invalidArgument (what : String)
  /-- `std::bad_array_new_length`, thrown by `new T[n]` -/
  | badArrayNewLength
  /-- `std::length_error` or `std::bad_alloc`, thrown by a container -/
  | lengthError
  /-- `assert` fails -/
  | assertion
  /-- an index past the end of an array or a vector -/
  | outOfRange
  | divideByZero
  | nullPointer
  /-- a shift by the width of the word or more -/
  | shiftTooFar
  deriving DecidableEq, Repr

/-- A run that returns or stops with a fault. -/
abbrev Run := Except Fault

export Passes (ok_bind of_bind_ok)

/-- The hash functions. Nothing below depends on which functions they are. -/
structure Hashes where
  sha256 : List U8 → Bytes 32
  murmurHash3 : U32 → List U8 → U32

/-- Hash functions that return zero, to run the model with. -/
def zeroHashes : Hashes := ⟨fun _ => zeroBytes 32, fun _ _ => 0⟩

/-- Hash functions that send every slice to the buckets 0, 1 and 2. -/
def spreadHashes : Hashes := ⟨fun _ => zeroBytes 32, fun seed _ => seed⟩

/-- Hash functions that see the first byte only: the version of a transaction, and what comes of it
in its txid, its short id and its slices. These go to three buckets in a row. -/
def headHashes : Hashes :=
  ⟨fun b => ⟨List.replicate 32 (b.headD 0), List.length_replicate⟩,
    fun seed b => seed + 3 * (b.headD 0).setWidth 32⟩

/-- Whether an allocation of `count` elements of `size` bytes succeeds. -/
abbrev Allocator := ℕ → ℕ → Bool

end BitcoinIblt
