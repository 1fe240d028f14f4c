import BitcoinIblt.IbltLine
import BitcoinIblt.IbltPool
import BitcoinIblt.Spelling

/-!
# What an accepted line is used for

`iblt-decode` takes the size and the seed of a line as they are: it divides by the size for every
slice of its own mempool, and `txid48` asserts the seed for every transaction. `read_iblt` compares
the length of the payload with the size only, and so accepts zeros for both. Every mempool can be
processed just when the payload has neither (`accepted_line_iff`).
-/

namespace BitcoinIblt

open LittleEndian StickyParser

/-! ## Processing a mempool -/

/-- Building the table `ours` and the pool from a mempool stops neither at the division of
`select_buckets` nor at `assert(seed)`. A mempool on which the assertion of `slice_tx` fires says
nothing about the seed. -/
structure Processes (H : Hashes) (size : ℕ) (seed : U64) (m : Txmap) : Prop where
  divides : RawIblt.ofTxmap H size seed m ≠ .error .divideByZero
  table : (∀ e ∈ m.entries, Sliceable e.2.btx) → RawIblt.ofTxmap H size seed m ≠ .error .assertion
  pool : IbltPool.new H seed m ≠ .error .assertion

section Process

variable {H : Hashes} {size : ℕ} {seed : U64}

/-- With a size and a seed only the assertion of `slice_tx` is left. -/
theorem insertTx_cases (hsize : 0 < size) (hseed : seed ≠ 0) (r : RawIblt size)
    (e : BitcoinTxid × Tx) :
    (∃ r', r.insertTx H seed e.1 e.2.btx = .ok r') ∨
      r.insertTx H seed e.1 e.2.btx = .error .assertion := by
  by_cases he : Sliceable e.2.btx
  · obtain ⟨r', hr', -⟩ := RawIblt.insertTx_ok (H := H) hsize hseed r he
    exact Or.inl ⟨r', hr'⟩
  · refine Or.inr ?_
    rw [RawIblt.insertTx, Txid48.new, if_neg hseed]
    show (sliceTx H e.2.btx (txid48 H seed e.1) >>= _) = _
    rw [sliceTx_assertion H he]
    rfl

theorem ofTxmap_ne_divideByZero (hsize : 0 < size) (hseed : seed ≠ 0) (m : Txmap) :
    RawIblt.ofTxmap H size seed m ≠ .error .divideByZero := by
  unfold RawIblt.ofTxmap
  generalize RawIblt.blank size = r
  induction m.entries generalizing r with
  | nil => rintro ⟨⟩
  | cons e l ih =>
    rw [List.foldlM_cons]
    rcases insertTx_cases (H := H) hsize hseed r e with ⟨r', hr'⟩ | hr'
    · rw [hr']
      exact ih r'
    · rw [hr']
      rintro ⟨⟩

/-- With a seed the constructor of the pool returns or goes astray in the tree. -/
theorem pool_ne_assertion (hseed : seed ≠ 0) (m : Txmap) :
    IbltPool.new H seed m ≠ .error .assertion := by
  by_cases hids : m.DistinctIds H seed
  · obtain ⟨pool, hpool, -⟩ := IbltPool.new_ok hseed hids
    rw [hpool]
    rintro ⟨⟩
  · unfold Txmap.DistinctIds at hids
    rw [← IbltPool.ids_poolEntry] at hids
    rw [IbltPool.new_eq_addAll hseed, IbltPool.files_empty.addAll_clash List.nodup_nil hids]
    rintro ⟨⟩

/-- The first slice of the blank transaction is divided by the size. -/
theorem ofTxmap_size_zero (hseed : seed ≠ 0) :
    RawIblt.ofTxmap H 0 seed oneTx = .error .divideByZero := by
  have hs : sliceTx H BitcoinTx.blank (txid48 H seed (zeroBytes 32)) =
      .ok (slicesOf H BitcoinTx.blank (txid48 H seed (zeroBytes 32))) :=
    sliceTx_eq _ sliceable_blank
  obtain ⟨s, tail, hv⟩ := List.exists_cons_of_ne_nil
    (slicesOf_ne_nil (H := H) (txid48 H seed (zeroBytes 32)) sliceable_blank)
  rw [RawIblt.ofTxmap]
  show (RawIblt.insertTx H seed (RawIblt.blank 0) (zeroBytes 32) BitcoinTx.blank >>= _) = _
  rw [RawIblt.insertTx, Txid48.new, if_neg hseed, ok_bind, hs, ok_bind, hv]
  rfl

theorem processes_iff :
    (∀ m, Processes H size seed m) ↔ size ≠ 0 ∧ seed ≠ 0 := by
  constructor
  · intro h
    have hseed : seed ≠ 0 := by
      rintro rfl
      exact (h oneTx).pool rfl
    refine ⟨?_, hseed⟩
    rintro rfl
    exact (h oneTx).divides (ofTxmap_size_zero hseed)
  · rintro ⟨hsize, hseed⟩ m
    have hpos := Nat.pos_of_ne_zero hsize
    refine ⟨ofTxmap_ne_divideByZero hpos hseed m, fun hm => ?_, pool_ne_assertion hseed m⟩
    obtain ⟨r, hr, -⟩ := RawIblt.ofTxmap_ok (H := H) hpos hseed hm
    rw [hr]
    rintro ⟨⟩

end Process

/-! ## The payload -/

/-- The bytes that the digits of the line stand for. -/
def linePayload (s : IStream) : Option (List U8) :=
  let (_, s) := s.peek
  let (_, s) := s.getline ','
  let (iblthex, _) := s.getline '\n'
  (hexDecode iblthex (hexDataSize iblthex.length)).map Subtype.val

section Line

variable {A : Allocator}

theorem readIblt_ok {s s' : IStream} {r : ReadIblt} (h : readIblt A s = .ok (some r, s')) :
    ∃ data, linePayload s = some data ∧ readIbltData A data = .ok r := by
  unfold readIblt at h
  simp only at h
  split_ifs at h
  · cases h
  · obtain ⟨r', hr', h⟩ := of_bind_ok h
    cases h
    unfold readIbltHex at hr'
    unfold linePayload
    dsimp only
    split at hr'
    · cases hr'
    · rename_i data hdata
      exact ⟨data.1, by rw [hdata]; rfl, hr'⟩

/-- The fields of a payload: a spelling of the size, eight bytes of the seed and eight of padding in
front of the table. -/
theorem readIbltData_fields {data : List U8} {r : ReadIblt} (h : readIbltData A data = .ok r) :
    ∃ (size : VarintSpelling) (p : List U8), data = size.bytes ++ p ∧ 16 ≤ p.length ∧
      r.ibltslices = size.value ∧ r.seed = BitVec.ofNat 64 (ofLE (p.take 8)) := by
  obtain ⟨⟨ibltslices, c⟩, hv, h⟩ := of_bind_ok h
  cases c with
  | none => cases h
  | some p =>
    obtain ⟨size, hsize, hdata⟩ := consumes_pullVarint hv
    dsimp only at h
    split_ifs at h with hp
    obtain ⟨riblt, hriblt, h⟩ := of_bind_ok h
    split_ifs at h
    cases h
    exact ⟨size, p, Option.some.inj hdata, Nat.not_lt.mp hp, hsize.symm, rfl⟩

/-- Eight bytes are the number zero just when they are zeros. -/
theorem ofLE_eq_zero {bs : List U8} (h : bs.length = 8) :
    BitVec.ofNat 64 (ofLE bs) = 0 ↔ bs = List.replicate 8 0 := by
  have hlt := ofLE_lt bs
  rw [h] at hlt
  constructor
  · intro hz
    have hnat : ofLE bs = 0 := by
      have := congrArg BitVec.toNat hz
      rwa [BitVec.toNat_ofNat, Nat.mod_eq_of_lt (by omega)] at this
    rw [← toLE_ofLE bs, h, hnat]
    rfl
  · rintro rfl
    rfl

/-- **What is accepted can be processed**, whatever the mempool is, just when neither the size nor
the seed in the payload is zero. -/
theorem accepted_line_iff (H : Hashes) {s s' : IStream} {r : ReadIblt}
    (h : readIblt A s = .ok (some r, s')) :
    ∃ (size : VarintSpelling) (p : List U8), linePayload s = some (size.bytes ++ p) ∧
      ((∀ m, Processes H r.ibltslices.toNat r.seed m) ↔
        size.value ≠ 0 ∧ p.take 8 ≠ List.replicate 8 0) := by
  obtain ⟨data, hpayload, hdata⟩ := readIblt_ok h
  obtain ⟨size, p, rfl, hp, hsize, hseed⟩ := readIbltData_fields hdata
  refine ⟨size, p, hpayload, ?_⟩
  have hlen : (p.take 8).length = 8 := by
    rw [List.length_take]
    omega
  have hzero : r.ibltslices.toNat = 0 ↔ size.value = 0 := by
    rw [hsize]
    exact ⟨fun hz => BitVec.eq_of_toNat_eq hz, fun hz => congrArg BitVec.toNat hz⟩
  rw [processes_iff, hseed]
  exact and_congr (not_congr hzero) (not_congr (ofLE_eq_zero hlen))

end Line

theorem accepted_line_one : ∃ (s' : IStream) (r : ReadIblt),
    readIblt (fun _ _ => true) (IStream.ofText (writeIblt 1 1 (RawIblt.blank 1))) =
        .ok (some r, s') ∧
      ∃ (size : VarintSpelling) (p : List U8),
        linePayload (IStream.ofText (writeIblt 1 1 (RawIblt.blank 1))) = some (size.bytes ++ p) ∧
        ((∀ m, Processes zeroHashes r.ibltslices.toNat r.seed m) ↔
          size.value ≠ 0 ∧ p.take 8 ≠ List.replicate 8 0) := by
  have hread := readIblt_writeIblt (A := fun _ _ => true) 1 1 (RawIblt.blank 1) ⟨rfl, rfl⟩ []
  rw [List.append_nil] at hread
  exact ⟨_, _, hread, accepted_line_iff zeroHashes hread⟩

/-- The line with the size 0 and the seed 1. -/
def sizeZeroLine : List Char := "iblt,0001000000000000000000000000000000\n".toList

/-- The line with the size 0 and the seed 0. -/
def seedZeroLine : List Char := "iblt,0000000000000000000000000000000000\n".toList

/-- Both lines are accepted. With a mempool of one transaction the first stops at the division, the
second at `assert(seed)`. -/
theorem accepted_line_zero :
    (∃ s' r, readIblt (fun _ _ => true) (IStream.ofText sizeZeroLine) = .ok (some r, s') ∧
      RawIblt.ofTxmap zeroHashes r.ibltslices.toNat r.seed oneTx = .error .divideByZero) ∧
    ∃ s' r, readIblt (fun _ _ => true) (IStream.ofText seedZeroLine) = .ok (some r, s') ∧
      RawIblt.ofTxmap zeroHashes r.ibltslices.toNat r.seed oneTx = .error .assertion ∧
      IbltPool.new zeroHashes r.seed oneTx = .error .assertion := by
  have hline : ∀ seed : U64, readIblt (fun _ _ => true)
      (IStream.ofText (writeIblt 0 seed (RawIblt.blank 0))) =
        .ok (some ⟨0, seed, RawIblt.blank 0⟩, IStream.ofText []) := by
    intro seed
    have hread := readIblt_writeIblt (A := fun _ _ => true) 0 seed (RawIblt.blank 0) ⟨rfl, rfl⟩ []
    rwa [List.append_nil] at hread
  have hsize : sizeZeroLine = writeIblt 0 1 (RawIblt.blank 0) := by decide
  have hseed : seedZeroLine = writeIblt 0 0 (RawIblt.blank 0) := by decide
  refine ⟨⟨_, _, by rw [hsize, hline], ofTxmap_size_zero (show (1 : U64) ≠ 0 by decide)⟩, _, _,
    by rw [hseed, hline], rfl, rfl⟩

end BitcoinIblt
