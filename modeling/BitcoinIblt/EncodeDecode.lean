import BitcoinIblt.BucketTable
import BitcoinIblt.Filters
import BitcoinIblt.IbltLine
import BitcoinIblt.Lib.Passes
import BitcoinIblt.RecoverOrder

/-!
# The encoder and the decoder

`main` of `iblt-encode.cpp` and of `iblt-decode.cpp`. The encoder makes a table for each block from
the block and the mempool of the first peer, and prints it as a line if it is shorter than the
block; the mempools of the other peers it passes on. The decoder makes a table of each mempool that
it reads and calls `recover_block`. All that passes between the two is text, and the maps that are
read have another order than those that were written. Yet what the decoder prints of a table is what
`recover_block` says of the tables of the maps that the encoder was given (`encode_decode`).
-/

namespace BitcoinIblt

open IStream Passes

variable (H : Hashes) (A : Allocator) (src : TxSource)

/-! ## The encoder -/

/-- The options of `iblt-encode`. -/
structure EncodeOptions where
  seed : U64
  /-- "Invalid --seed" -/
  seed_ne : seed ≠ 0
  fixedBuckets : U64
  doIblt : Bool

def totalSize (block : Txmap) : ℕ := (block.entries.map fun pair => pair.2.btx.length).sum

/-- `buckets` -/
def EncodeOptions.buckets (o : EncodeOptions) (block mempool : Txmap) : U64 :=
  if o.fixedBuckets ≠ 0 then o.fixedBuckets else BitVec.ofNat 64 (dynamicBuckets block mempool)

/-- The constructor from a size and a `txmap`, with its allocations. -/
def RawIblt.make (size : ℕ) (seed : U64) (txs : Txmap) : Run (RawIblt size) := do
  let _ ← RawIblt.new A size
  RawIblt.ofTxmap H size seed txs

/-- The block is printed with the bytes that it takes, and the table only if it is shorter. -/
def encodedLines (o : EncodeOptions) (buckets : U64) (riblt : RawIblt buckets.toNat)
    (line : BlockLine) : List Char :=
  let encoded := encodeIblt buckets o.seed riblt
  let blocksz := totalSize line.block
  if blocksz ≤ encoded.length ∨ o.doIblt = false then
    writeBlockline { line with overhead := line.overhead + BitVec.ofNat 32 blocksz }
  else
    writeBlockline { line with overhead := line.overhead + BitVec.ofNat 32 encoded.length } ++
      writeIblt buckets o.seed riblt

/-- `write_mempool` for each mempool line that is left. -/
def copyMempool (_ : Unit) (l : MempoolLine) : Run (Unit × List Char) := .ok ((), writeMempool l)

/-- What the encoder does with a block line. -/
def encodeBody (o : EncodeOptions) (line : BlockLine) (u : Unknowns) (s : IStream) :
    Filter (List Char × Unknowns × IStream) := do
  let (first, u, s) ← Filter.of (readMempool src u s)
  match first with
  | none => throw (.errx "Failed reading first mempool line")
  | some first =>
    let buckets := o.buckets line.block first.mempool
    let riblt ← Filter.of (RawIblt.make H A buckets.toNat o.seed line.block)
    let (rest, u, s) ← Filter.of (forMempools src copyMempool () u s)
    return (encodedLines o buckets riblt line ++ rest, u, s)

/-! ## The decoder -/

/-- `blocknum,overhead,ibltslices,peername,[0|1]` -/
def decodedLine (line : BlockLine) (ibltslices : U64) (peername : List Char) (recovered : Bool) :
    List Char :=
  Nat.toDigits 10 line.blocknum.toNat ++ [','] ++ Nat.toDigits 10 line.overhead.toNat ++ [','] ++
    Nat.toDigits 10 ibltslices.toNat ++ [','] ++ peername ++
    [',', if recovered then '1' else '0', '\n']

variable (junk : BucketType → Bool)

/-- What the decoder does with a mempool line. -/
def decodeMempool (theirs : Option ReadIblt) (line : BlockLine) (_ : Unit) (l : MempoolLine) :
    Run (Unit × List Char) :=
  match theirs with
  | none => .ok ((), decodedLine line 0 l.peername true)
  | some theirs => do
    let ours ← RawIblt.make H A theirs.ibltslices.toNat theirs.seed l.mempool
    let recovered ← recoverBlock H A junk theirs.riblt ours theirs.seed l.mempool line.block
    return ((), decodedLine line theirs.ibltslices l.peername recovered)

/-- What the decoder does with a block line. -/
def decodeBody (line : BlockLine) (u : Unknowns) (s : IStream) :
    Run (List Char × Unknowns × IStream) := do
  let (theirs, s) ← readIblt A s
  forMempools src (decodeMempool H A junk theirs line) () u s

/-! ## Nothing is put back -/

section Progress

variable {H} {A} {src} {junk}

theorem encodeBody_rest_le {o : EncodeOptions} {line : BlockLine} {u : Unknowns} {s : IStream}
    {r : List Char × Unknowns × IStream} (h : encodeBody H A src o line u s = .ok r) :
    r.2.2.rest.length ≤ s.rest.length := by
  obtain ⟨⟨first, u₁, s₁⟩, hfirst, h⟩ := of_bind_ok h
  have hle := readMempool_rest_le (of_filter_ok hfirst)
  cases first with
  | none => cases h
  | some first =>
    obtain ⟨riblt, -, h⟩ := of_bind_ok h
    obtain ⟨⟨rest, u₂, s₂⟩, hloop, h⟩ := of_bind_ok h
    cases h
    exact (forMempools_rest_le src (of_filter_ok hloop)).trans hle

theorem readIblt_rest_le {s : IStream} {r : Option ReadIblt × IStream}
    (h : readIblt A s = .ok r) : r.2.rest.length ≤ s.rest.length := by
  unfold readIblt at h
  dsimp only at h
  split_ifs at h with hpeek hstr hfail
  · cases h
    rw [peek_rest]
  · have hword := word_rest_lt (not_not.mp hpeek)
    obtain ⟨theirs, -, h⟩ := of_bind_ok h
    cases h
    exact ((s.peek.2.getline ',').2.getline_rest_le '\n').trans hword.le

theorem decodeBody_rest_le {line : BlockLine} {u : Unknowns} {s : IStream}
    {r : List Char × Unknowns × IStream} (h : decodeBody H A src junk line u s = .ok r) :
    r.2.2.rest.length ≤ s.rest.length := by
  obtain ⟨⟨theirs, s₁⟩, hread, h⟩ := of_bind_ok h
  exact (forMempools_rest_le src h).trans (readIblt_rest_le hread)

end Progress

/-- `main` of `iblt-encode` on its input. -/
def encodeMain (o : EncodeOptions) (u : Unknowns) (input : IStream) : Filter (List Char) :=
  forBlocks src ⟨encodeBody H A src o, encodeBody_rest_le⟩ u input

/-- `main` of `iblt-decode` on its input. -/
def decodeMain (u : Unknowns) (input : IStream) : Filter (List Char) :=
  forBlocks src ⟨fun line u s => Filter.of (decodeBody H A src junk line u s),
    fun h => decodeBody_rest_le (of_filter_ok h)⟩ u input

/-! ## What is sent -/

/-- A block, the mempool of the first peer, and those of the others. -/
structure SentDesc where
  line : BlockLine
  first : MempoolLine
  later : List MempoolLine

/-- The mempool lines behind the block line. -/
def SentDesc.tail (d : SentDesc) : List Char := (d.first :: d.later).flatMap writeMempool

/-- What the encoder prints for a block. -/
structure EncodedDesc where
  line : BlockLine
  iblt : Option ReadIblt
  mempools : List MempoolLine

/-- The line of the table, if there is one. -/
def writeTable : Option ReadIblt → List Char
  | none => []
  | some r => writeIblt r.ibltslices r.seed r.riblt

/-- What follows the block line. -/
def EncodedDesc.tail (e : EncodedDesc) : List Char :=
  writeTable e.iblt ++ e.mempools.flatMap writeMempool

/-- The bytes of a table of that size, with the size and the seed. -/
def encodedSize (buckets : U64) : ℕ :=
  (varintBytes buckets).length + 16 + buckets.toNat * (2 + 8 + ibltSize)

namespace SentDesc

variable (o : EncodeOptions) (d : SentDesc)

def buckets : U64 := o.buckets d.line.block d.first.mempool

/-- The table is sent: it is shorter than the block. -/
def HasIblt : Prop := encodedSize (d.buckets o) < totalSize d.line.block ∧ o.doIblt = true

instance : Decidable (d.HasIblt o) := inferInstanceAs (Decidable (_ ∧ _))

/-- The bytes that are sent for the block. -/
def sentBytes : ℕ :=
  if d.HasIblt o then encodedSize (d.buckets o) else totalSize d.line.block

/-- The block line with these bytes. -/
def sentLine : BlockLine :=
  { d.line with overhead := d.line.overhead + BitVec.ofNat 32 (d.sentBytes o) }

/-- What the decoder prints for the slices of the table. -/
def ibltslices : U64 := if d.HasIblt o then d.buckets o else 0

/-- All transactions are found again and can be cut, and the number of buckets is a `size_t`. -/
structure Sendable (H : Hashes) (src : TxSource) : Prop where
  block : d.line.block.Resolved src
  mempools : ∀ l ∈ d.first :: d.later, l.Named ∧ l.mempool.Resolved src
  sliceable : ∀ e ∈ d.line.block.entries, Sliceable e.2.btx
  fits : dynamicBuckets d.line.block d.first.mempool < 2 ^ 64
  laterSliceable : ∀ l ∈ d.later, ∀ e ∈ l.mempool.entries, Sliceable e.2.btx
  laterIds : ∀ l ∈ d.later, l.mempool.DistinctIds H o.seed

end SentDesc

/-- The same mempool, in any order. -/
structure MempoolLine.Same (l l' : MempoolLine) : Prop where
  peername : l'.peername = l.peername
  mempool : l.mempool.entries.Perm l'.mempool.entries

/-- `e` is what the encoder makes of `d`. -/
structure Encodes (o : EncodeOptions) (d : SentDesc) (e : EncodedDesc) : Prop where
  blocknum : e.line.blocknum = d.line.blocknum
  overhead : e.line.overhead = (d.sentLine o).overhead
  block : d.line.block.entries.Perm e.line.block.entries
  iblt : if d.HasIblt o then ∃ riblt, RawIblt.ofTxmap H (d.buckets o).toNat o.seed d.line.block =
    .ok riblt ∧ e.iblt = some ⟨d.buckets o, o.seed, riblt⟩ else e.iblt = none
  mempools : List.Forall₂ MempoolLine.Same d.later e.mempools

/-- What `recover_block` says of the tables of two maps. -/
def Answers (size : ℕ) (seed : U64) (mempool block : Txmap) (b : Bool) : Prop :=
  ∃ theirs ours : RawIblt size, RawIblt.ofTxmap H size seed block = .ok theirs ∧
    RawIblt.ofTxmap H size seed mempool = .ok ours ∧
    recoverBlock H A junk theirs ours seed mempool block = .ok b

/-! ## The encoder on written lines -/

variable {H} {A} {src} {o : EncodeOptions}

theorem length_encodeIblt (buckets seed : U64) (riblt : RawIblt buckets.toNat) :
    (encodeIblt buckets seed riblt).length = encodedSize buckets := by
  have hvarint : Id.run (addVarint buckets addLinearize []) = varintBytes buckets := rfl
  unfold encodeIblt encodedSize
  rw [riblt.write_eq, List.length_append, List.length_append, riblt.length_tableBytes,
    table_length, seedStr_eq, hvarint]
  simp

theorem Txmap.sdiff_perm {B B' M M' : Txmap} (hB : B.entries.Perm B'.entries)
    (hM : M.entries.Perm M'.entries) : (B.sdiff M).Perm (B'.sdiff M') := by
  have hkeys : ∀ k, k ∈ M.keys ↔ k ∈ M'.keys := fun k => (hM.map Prod.fst).mem_iff
  unfold Txmap.sdiff
  simp only [hkeys]
  exact hB.filter _

theorem dynamicBuckets_perm {B B' M M' : Txmap} (hB : B.entries.Perm B'.entries)
    (hM : M.entries.Perm M'.entries) : dynamicBuckets B M = dynamicBuckets B' M' := by
  unfold dynamicBuckets
  rw [dynamicSlices_eq, dynamicSlices_eq, ((Txmap.sdiff_perm hB hM).map _).sum_eq]

theorem totalSize_perm {B B' : Txmap} (hB : B.entries.Perm B'.entries) :
    totalSize B = totalSize B' :=
  (hB.map _).sum_eq

theorem EncodeOptions.buckets_pos (o : EncodeOptions) {B M : Txmap}
    (h : dynamicBuckets B M < 2 ^ 64) : 0 < (o.buckets B M).toNat := by
  unfold EncodeOptions.buckets
  split_ifs with hfixed
  · have hne : o.fixedBuckets.toNat ≠ 0 := fun h0 => hfixed (BitVec.eq_of_toNat_eq h0)
    omega
  · have hinit : initialSlices ≤ dynamicSlices B M * sliceFactor := by
      rw [sliceFactor, Nat.mul_one]
      exact initialSlices_le B M
    have hlo := (bucketsFor_bounds (h := hinit)).1
    rw [BitVec.toNat_ofNat, Nat.mod_eq_of_lt h]
    unfold dynamicBuckets
    unfold initialSlices at hinit
    omega

theorem RawIblt.make_eq (hA : A.Succeeds) (size : ℕ) (seed : U64) (txs : Txmap) :
    RawIblt.make H A size seed txs = RawIblt.ofTxmap H size seed txs := by
  rw [make, RawIblt.new_ok ⟨hA _ _, hA _ _⟩, ok_bind]

theorem runMempools_copy (ls : List MempoolLine) :
    runMempools copyMempool () ls = .ok (ls.flatMap writeMempool) := by
  induction ls with
  | nil => rfl
  | cons l ls ih =>
    rw [runMempools, copyMempool, ok_bind]
    dsimp only
    rw [ih]
    rfl

theorem MempoolLine.ReadAs.same {l l' : MempoolLine} (h : MempoolLine.ReadAs src l l')
    (hl : l.mempool.Resolved src) : MempoolLine.Same l l' :=
  ⟨h.peername, h.mempool.perm hl⟩

theorem forall₂_same {ls ls' : List MempoolLine}
    (h : List.Forall₂ (MempoolLine.ReadAs src) ls ls')
    (hls : ∀ l ∈ ls, l.mempool.Resolved src) : List.Forall₂ MempoolLine.Same ls ls' := by
  induction h with
  | nil => exact List.Forall₂.nil
  | cons hl _ ih =>
    obtain ⟨hfirst, hrest⟩ := List.forall_mem_cons.mp hls
    exact List.Forall₂.cons (hl.same hfirst) (ih hrest)

theorem Txmap.Resolved.perm {m m' : Txmap} (h : m.Resolved src)
    (hm : m.entries.Perm m'.entries) : m'.Resolved src :=
  fun e he => h e (hm.mem_iff.mpr he)

theorem forall_same {ls ls' : List MempoolLine} (h : List.Forall₂ MempoolLine.Same ls ls')
    (hls : ∀ l ∈ ls, l.Named ∧ l.mempool.Resolved src) :
    ∀ l ∈ ls', l.Named ∧ l.mempool.Resolved src := by
  induction h with
  | nil => exact hls
  | cons hl _ ih =>
    obtain ⟨⟨hnamed, hresolved⟩, hrest⟩ := List.forall_mem_cons.mp hls
    refine List.forall_mem_cons.mpr ⟨⟨?_, hresolved.perm hl.mempool⟩, ih hrest⟩
    unfold MempoolLine.Named
    rwa [hl.peername]

/-- What is printed for a block is the block line with the bytes sent, and the table. -/
theorem encodedLines_eq (d : SentDesc) (riblt : RawIblt (d.buckets o).toNat) {line : BlockLine}
    (hoverhead : line.overhead = d.line.overhead)
    (hblock : d.line.block.entries.Perm line.block.entries) :
    encodedLines o (d.buckets o) riblt line =
      writeBlockline { line with overhead := (d.sentLine o).overhead } ++
        writeTable (if d.HasIblt o then some ⟨d.buckets o, o.seed, riblt⟩ else none) := by
  unfold encodedLines SentDesc.sentLine SentDesc.sentBytes
  simp only [length_encodeIblt, ← totalSize_perm hblock, hoverhead]
  by_cases h : d.HasIblt o
  · have hno : ¬ (totalSize d.line.block ≤ encodedSize (d.buckets o) ∨ o.doIblt = false) := by
      rw [not_or]
      exact ⟨Nat.not_le.mpr h.1, by rw [h.2]; decide⟩
    simp only [if_neg hno, if_pos h]
    rfl
  · have hyes : totalSize d.line.block ≤ encodedSize (d.buckets o) ∨ o.doIblt = false := by
      unfold SentDesc.HasIblt at h
      rwa [not_and_or, Nat.not_lt, Bool.not_eq_true] at h
    simp only [if_pos hyes, if_neg h]
    exact (List.append_nil _).symm

/-- The encoder on a block that was written. -/
theorem encodeBody_write (hA : A.Succeeds) {d : SentDesc} (hd : d.Sendable o H src)
    {line : BlockLine} (hline : BlockLine.ReadAs src d.line line) (u : Unknowns) {rest : List Char}
    (hrest : NextBlock rest) :
    ∃ e u' s', encodeBody H A src o line u (ofText (d.tail ++ rest)) =
        .ok (writeBlockline e.line ++ e.tail, u', s') ∧ StreamAt rest s' ∧ Encodes H o d e := by
  obtain ⟨hfirst, hlater⟩ := List.forall_mem_cons.mp hd.mempools
  obtain ⟨first, u₁, hread, hf⟩ :=
    readMempool_write src hfirst.1 u (d.later.flatMap writeMempool ++ rest)
  obtain ⟨ls, hls, hloop⟩ := forMempools_write copyMempool (fun l hl => (hlater l hl).1) hrest u₁
    (StreamAt.ofText _)
  obtain ⟨u₂, s₂, hfor, hat⟩ := hloop () _ (runMempools_copy ls)
  have hblock := hline.block.perm hd.block
  have hmempool := hf.mempool.perm hfirst.2
  have hbuckets : o.buckets line.block first.mempool = d.buckets o := by
    unfold SentDesc.buckets EncodeOptions.buckets
    rw [dynamicBuckets_perm hblock hmempool]
  have hsize : 0 < (d.buckets o).toNat := o.buckets_pos hd.fits
  obtain ⟨riblt, hriblt, -⟩ := RawIblt.ofTxmap_ok (H := H) hsize o.seed_ne hd.sliceable
  have hmake : RawIblt.make H A (d.buckets o).toNat o.seed line.block = .ok riblt := by
    rw [RawIblt.make_eq hA, ofTxmap_perm hsize o.seed_ne hblock.symm hd.sliceable, hriblt]
  refine ⟨⟨{ line with overhead := (d.sentLine o).overhead },
    if d.HasIblt o then some ⟨d.buckets o, o.seed, riblt⟩ else none, ls⟩, u₂, s₂, ?_, hat, ?_⟩
  · have htext : ofText (d.tail ++ rest) =
        ofText (writeMempool d.first ++ (d.later.flatMap writeMempool ++ rest)) := by
      rw [← List.append_assoc]
      rfl
    unfold encodeBody EncodedDesc.tail
    rw [htext, hread, ← List.append_assoc, ← encodedLines_eq d riblt hline.overhead hblock]
    show (Filter.of (RawIblt.make H A (o.buckets line.block first.mempool).toNat o.seed
      line.block) >>= _) = _
    generalize o.buckets line.block first.mempool = buckets at hbuckets ⊢
    subst hbuckets
    rw [hmake, hfor]
    rfl
  · refine ⟨hline.blocknum, rfl, hblock, ?_, forall₂_same hls fun l hl => (hlater l hl).2⟩
    split_ifs
    · exact ⟨riblt, hriblt, rfl⟩
    · rfl

/-! ## The decoder on written lines -/

/-- On a mempool with distinct ids whose transactions can be cut, `recover_block` answers. -/
theorem answers_exists (hA : A.Succeeds) {size : ℕ} (hsize : 0 < size) {seed : U64}
    (hseed : seed ≠ 0) {M B : Txmap} (hM : ∀ e ∈ M.entries, Sliceable e.2.btx)
    (hB : ∀ e ∈ B.entries, Sliceable e.2.btx) (hids : M.DistinctIds H seed) :
    ∃ b, Answers H A junk size seed M B b := by
  obtain ⟨theirs, htheirs, -⟩ := RawIblt.ofTxmap_ok (H := H) hsize hseed hB
  obtain ⟨ours, hours, -⟩ := RawIblt.ofTxmap_ok (H := H) hsize hseed hM
  obtain ⟨diff, hd, -⟩ := Iblt.new_ok H junk theirs ours
  obtain ⟨pool, hp, -⟩ := IbltPool.new_ok (H := H) hseed hids
  have hstart : PeelStart H junk theirs ours seed M ⟨diff, pool.txByTxid48, OrdSet.empty⟩ :=
    ⟨diff, pool, hd, hp, rfl⟩
  obtain ⟨result, hpeel⟩ := hstart.returns hids hM
  cases result with
  | none =>
    refine ⟨false, theirs, ours, htheirs, hours, ?_⟩
    unfold recoverBlock
    rw [hd, ok_bind, hp, ok_bind, hpeel]
    rfl
  | some st =>
    obtain ⟨b, hb⟩ := (finish_returns H A st B).resolve_right fun h => h.2 hA
    exact ⟨b, theirs, ours, htheirs, hours, (recoverBlock_of_peel H hd hp hpeel).trans hb⟩

/-- The table is read, if there is one. -/
theorem readIblt_writeTable (hA : A.Succeeds) (table : Option ReadIblt) (ls : List MempoolLine)
    {rest : List Char} (hrest : NextBlock rest) :
    ∃ s', readIblt A (ofText (writeTable table ++ (ls.flatMap writeMempool ++ rest))) =
        .ok (table, s') ∧ StreamAt (ls.flatMap writeMempool ++ rest) s' := by
  cases table with
  | some r =>
    exact ⟨_, readIblt_writeIblt r.ibltslices r.seed r.riblt ⟨hA _ _, hA _ _⟩ _, StreamAt.ofText _⟩
  | none =>
    have hat := StreamAt.ofText (ls.flatMap writeMempool ++ rest)
    have hne : (ofText (ls.flatMap writeMempool ++ rest)).peek.1 ≠ some 'i' := by
      cases ls with
      | nil => exact hat.peek_ne hrest (by decide)
      | cons l ls =>
        intro h
        have hchar : 'm' = 'i' := Option.some.inj h
        exact absurd hchar (by decide)
    refine ⟨_, ?_, hat.peek⟩
    unfold readIblt
    exact if_pos hne

/-- If each line is printed on its own, the loop prints them one after the other. -/
theorem runMempools_each {σ δ : Type} {body : σ → MempoolLine → Run (σ × List Char)} {st : σ}
    (text : δ → List Char) {R : MempoolLine → δ → Prop} {S : MempoolLine → MempoolLine → Prop}
    {ls ls' : List MempoolLine} (hls : List.Forall₂ S ls ls')
    (hbody : ∀ l ∈ ls, ∀ l', S l l' → ∃ e, body st l' = .ok (st, text e) ∧ R l e) :
    ∃ es, runMempools body st ls' = .ok (es.flatMap text) ∧ List.Forall₂ R ls es := by
  induction hls with
  | nil => exact ⟨[], rfl, List.Forall₂.nil⟩
  | cons hl _ ih =>
    obtain ⟨hfirst, hbody⟩ := List.forall_mem_cons.mp hbody
    obtain ⟨e, he, hr⟩ := hfirst _ hl
    obtain ⟨es, hrun, hrs⟩ := ih hbody
    refine ⟨e :: es, ?_, List.Forall₂.cons hr hrs⟩
    rw [runMempools, he, ok_bind]
    dsimp only
    rw [hrun]
    rfl

variable (H) (A) in
/-- A line of the decoder: with a table its buckets and what `recover_block` answers, without one
no buckets and a success. -/
def SentDesc.Decoded (o : EncodeOptions) (d : SentDesc) (l : MempoolLine) (out : List Char) :
    Prop :=
  ∃ b, out = decodedLine (d.sentLine o) (d.ibltslices o) l.peername b ∧
    if d.HasIblt o then
      Answers H A junk (d.buckets o).toNat o.seed l.mempool d.line.block b
    else b = true

theorem SentDesc.Decoded.of_hasIblt {d : SentDesc} {l : MempoolLine} {out : List Char}
    (h : d.Decoded H A junk o l out) (hiblt : d.HasIblt o) :
    ∃ b, out = decodedLine (d.sentLine o) (d.buckets o) l.peername b ∧
      Answers H A junk (d.buckets o).toNat o.seed l.mempool d.line.block b := by
  obtain ⟨b, hout, hb⟩ := h
  unfold SentDesc.ibltslices at hout
  rw [if_pos hiblt] at hout hb
  exact ⟨b, hout, hb⟩

theorem SentDesc.Decoded.of_not_hasIblt {d : SentDesc} {l : MempoolLine} {out : List Char}
    (h : d.Decoded H A junk o l out) (hiblt : ¬ d.HasIblt o) :
    out = decodedLine (d.sentLine o) 0 l.peername true := by
  obtain ⟨b, hout, hb⟩ := h
  unfold SentDesc.ibltslices at hout
  rw [if_neg hiblt] at hout hb
  rw [hout, hb]

variable (H) (A) in
/-- The lines of the decoder for the later mempools of `d`. -/
def SentDesc.DecodedLines (o : EncodeOptions) (d : SentDesc) (outs : List (List Char)) : Prop :=
  List.Forall₂ (d.Decoded H A junk o) d.later outs

/-- The decoder on a mempool line. -/
theorem decodeMempool_ok (hA : A.Succeeds) {d : SentDesc} (hd : d.Sendable o H src)
    {e : EncodedDesc} (he : Encodes H o d e) {line : BlockLine}
    (hline : BlockLine.ReadAs src e.line line)
    (hblock : d.line.block.entries.Perm line.block.entries)
    {l l' : MempoolLine} (hl : l ∈ d.later) (hsame : MempoolLine.Same l l') :
    ∃ out, decodeMempool H A junk e.iblt line () l' = .ok ((), out) ∧
      d.Decoded H A junk o l out := by
  have hprint : ∀ ibltslices b, decodedLine line ibltslices l'.peername b =
      decodedLine (d.sentLine o) ibltslices l.peername b := by
    intro ibltslices b
    unfold decodedLine
    rw [hline.blocknum, hline.overhead, he.blocknum, he.overhead, hsame.peername]
    rfl
  have htable := he.iblt
  unfold SentDesc.Decoded SentDesc.ibltslices
  by_cases h : d.HasIblt o
  · simp only [if_pos h] at htable ⊢
    obtain ⟨theirs, htheirs, hiblt⟩ := htable
    have hsize : 0 < (d.buckets o).toNat := o.buckets_pos hd.fits
    obtain ⟨b, theirs', ours, htheirs', hours, hb⟩ := answers_exists junk hA hsize
      o.seed_ne (hd.laterSliceable l hl) hd.sliceable (hd.laterIds l hl)
    rw [htheirs] at htheirs'
    cases htheirs'
    refine ⟨_, ?_, b, rfl, theirs, ours, htheirs, hours, hb⟩
    have hours' : RawIblt.make H A (d.buckets o).toNat o.seed l'.mempool = .ok ours := by
      rw [RawIblt.make_eq hA, ofTxmap_perm hsize o.seed_ne hsame.mempool.symm
        (hd.laterSliceable l hl), hours]
    have hb' := (recoverBlock_same H A junk theirs ours o.seed hsame.mempool hblock).eq
    rw [hb] at hb'
    rw [hiblt, ← hprint]
    unfold decodeMempool
    dsimp only
    rw [hours', ok_bind, ← hb']
    rfl
  · simp only [if_neg h] at htable ⊢
    refine ⟨_, ?_, true, rfl, rfl⟩
    rw [htable, ← hprint]
    rfl

/-- The decoder on a block that the encoder has printed. -/
theorem decodeBody_write (hA : A.Succeeds) {d : SentDesc} (hd : d.Sendable o H src)
    {e : EncodedDesc} (he : Encodes H o d e) {line : BlockLine}
    (hline : BlockLine.ReadAs src e.line line) (u : Unknowns) {rest : List Char}
    (hrest : NextBlock rest) :
    ∃ outs u' s', decodeBody H A src junk line u (ofText (e.tail ++ rest)) =
        .ok (outs.flatten, u', s') ∧ StreamAt rest s' ∧ d.DecodedLines H A junk o outs := by
  obtain ⟨-, hlater⟩ := List.forall_mem_cons.mp hd.mempools
  have hmempools : ∀ l ∈ e.mempools, l.Named ∧ l.mempool.Resolved src :=
    forall_same he.mempools hlater
  have hblock : d.line.block.entries.Perm line.block.entries :=
    he.block.trans (hline.block.perm (hd.block.perm he.block))
  obtain ⟨s₁, hread, hat₁⟩ := readIblt_writeTable hA e.iblt e.mempools hrest
  obtain ⟨ls, hls, hloop⟩ := forMempools_write (decodeMempool H A junk e.iblt line)
    (fun l hl => (hmempools l hl).1) hrest u hat₁
  have hsame : List.Forall₂ MempoolLine.Same d.later ls :=
    forall₂_comp he.mempools (forall₂_same hls fun l hl => (hmempools l hl).2)
      fun l _ l' hl l'' hl' => ⟨hl'.peername.trans hl.peername, hl.mempool.trans hl'.mempool⟩
  obtain ⟨outs, hrun, houts⟩ := runMempools_each id hsame fun l hl l' hl' =>
    decodeMempool_ok junk hA hd he hline hblock hl hl'
  rw [List.flatMap_id] at hrun
  obtain ⟨u', s', hfor, hat⟩ := hloop () _ hrun
  refine ⟨outs, u', s', ?_, hat, houts⟩
  unfold decodeBody EncodedDesc.tail
  rw [List.append_assoc, hread]
  exact hfor

/-- The text of the descriptions. -/
def sentText (descs : List SentDesc) : List Char :=
  descs.flatMap fun d => writeBlockline d.line ++ d.tail

def encodedText (es : List EncodedDesc) : List Char :=
  es.flatMap fun e => writeBlockline e.line ++ e.tail

/-- The encoder on blocks that were written. -/
theorem encodeMain_write (hA : A.Succeeds) {descs : List SentDesc}
    (h : ∀ d ∈ descs, d.Sendable o H src) (u : Unknowns) :
    ∃ es, encodeMain H A src o u (ofText (sentText descs)) = .ok (encodedText es) ∧
      List.Forall₂ (Encodes H o) descs es :=
  forBlocks_write ⟨encodeBody H A src o, encodeBody_rest_le⟩ SentDesc.line
    SentDesc.tail (fun e : EncodedDesc => writeBlockline e.line ++ e.tail) (Encodes H o) descs
    (fun d hd _ u _ hline hrest => encodeBody_write hA (h d hd) hline u hrest) u
    (StreamAt.ofText _)

/-- The decoder on blocks that the encoder has printed. -/
theorem decodeMain_write (hA : A.Succeeds) {descs : List SentDesc}
    (h : ∀ d ∈ descs, d.Sendable o H src) {es : List EncodedDesc}
    (hes : List.Forall₂ (Encodes H o) descs es) (u : Unknowns) :
    ∃ blocks, decodeMain H A src junk u (ofText (encodedText es)) =
        .ok (blocks.flatMap List.flatten) ∧
      List.Forall₂ (SentDesc.DecodedLines H A junk o) descs blocks := by
  -- the blocks with what the encoder made of them
  have hzip : ((descs.zip es).flatMap fun p => writeBlockline p.2.line ++ p.2.tail) =
      encodedText es := by
    unfold encodedText
    rw [← List.flatMap_map (f := Prod.snd) (g := fun e : EncodedDesc =>
      writeBlockline e.line ++ e.tail), List.map_snd_zip hes.length_eq.ge]
  obtain ⟨blocks, hdecode, hblocks⟩ := forBlocks_write
    ⟨fun line u s => Filter.of (decodeBody H A src junk line u s),
      fun h => decodeBody_rest_le (of_filter_ok h)⟩
    (fun p : SentDesc × EncodedDesc => p.2.line) (fun p => p.2.tail) List.flatten
    (fun p outs => p.1.DecodedLines H A junk o outs) (descs.zip es)
    (fun p hp line' u rest hline hrest => by
      obtain ⟨outs, u₁, s₁, hrun, hat, houts⟩ := decodeBody_write junk hA
        (h p.1 (List.of_mem_zip hp).1) (List.forall₂_zip hes hp) hline u hrest
      exact ⟨outs, u₁, s₁, congrArg Filter.of hrun, hat, houts⟩) u
    (s := ofText (encodedText es)) (by rw [hzip]; exact StreamAt.ofText _)
  have hfst : (descs.zip es).map Prod.fst = descs := List.map_fst_zip hes.length_eq.le
  refine ⟨blocks, hdecode, ?_⟩
  rw [← hfst]
  exact List.forall₂_map_left_iff.mpr hblocks

/-- **From the encoder to the decoder.** The decoder reads what the encoder prints, and comes to
its end. For each block it prints one line for each later mempool, with the number of the block and
its overhead with the bytes that were sent for it. If a table was sent, the line has its buckets,
and says whether `recover_block` recovers the block from the tables of the maps that the encoder
was given. If not, since the block is no longer than its table or no tables were asked for, the
line has no buckets and says that the block is there. -/
theorem encode_decode (H : Hashes) {A : Allocator} (hA : A.Succeeds) (src : TxSource)
    (junk : BucketType → Bool) (o : EncodeOptions) (descs : List SentDesc)
    (h : ∀ d ∈ descs, d.Sendable o H src) (u u' : Unknowns) :
    ∃ text blocks, encodeMain H A src o u (ofText (sentText descs)) = .ok text ∧
      decodeMain H A src junk u' (ofText text) = .ok (blocks.flatMap List.flatten) ∧
      List.Forall₂ (SentDesc.DecodedLines H A junk o) descs blocks := by
  obtain ⟨es, hencode, hes⟩ := encodeMain_write (H := H) (o := o) hA h u
  obtain ⟨blocks, hdecode, hblocks⟩ := decodeMain_write junk hA h hes u'
  exact ⟨_, blocks, hencode, hdecode, hblocks⟩

/-- Three buckets for every block. -/
def threeBuckets : EncodeOptions := ⟨1, by decide, 3, true⟩

/-- A transaction of more than a thousand bytes, and a short one. -/
def longBlock : Txmap := headTxs [(2, 1000), (1, 0)] (by decide)

/-- The first peer has the block, the second lacks the short transaction. -/
def longSent : SentDesc :=
  ⟨⟨1, 80, longBlock⟩, ⟨['p'], longBlock⟩, [⟨['q'], headTxs [(2, 1000)] (by decide)⟩]⟩

/-- A block of the short transaction, which the second peer lacks. -/
def shortSent : SentDesc :=
  ⟨⟨2, 80, headTxs [(1, 0)] (by decide)⟩, ⟨['p'], headTxs [(1, 0)] (by decide)⟩,
    [⟨['q'], UnorderedMap.empty⟩]⟩

/-- The transactions are found in the long block. -/
def longSource : TxSource := ⟨none, longBlock.find⟩

theorem resolved_long {m : Txmap} (h : ∀ e ∈ m.entries, e ∈ longBlock.entries) :
    m.Resolved longSource :=
  fun e he => UnorderedMap.find_eq_some_iff.mpr (h e he)

/-- A first peer that has the block does not make the table larger. -/
theorem dynamicBuckets_self (block : Txmap) : dynamicBuckets block block < 2 ^ 64 := by
  have hnone : block.sdiff block = [] := Txmap.sdiff_eq_nil fun e he => he
  have hslices : dynamicSlices block block * sliceFactor = 10 := by
    rw [dynamicSlices_eq, hnone]
    rfl
  have hhi := (bucketsFor_bounds (show 10 ≤ 10 by decide)).2
  unfold dynamicBuckets
  rw [hslices]
  omega

theorem longSent_sendable : longSent.Sendable threeBuckets headHashes longSource where
  block := resolved_long fun e he => he
  mempools := by
    refine List.forall_mem_cons.mpr ⟨⟨?_, resolved_long fun e he => he⟩,
      List.forall_mem_singleton.mpr ⟨?_, resolved_long fun e he => ?_⟩⟩
    · unfold MempoolLine.Named
      decide
    · unfold MempoolLine.Named
      decide
    · rw [List.mem_singleton.mp he]
      exact List.mem_cons_self
  sliceable := headTxs_sliceable (by decide)
  fits := dynamicBuckets_self longBlock
  laterSliceable := List.forall_mem_singleton.mpr (headTxs_sliceable (by decide))
  laterIds := List.forall_mem_singleton.mpr (headTxs_distinctIds (by decide) 1)

theorem shortSent_sendable : shortSent.Sendable threeBuckets headHashes longSource where
  block := resolved_long fun e he => List.mem_cons_of_mem _ he
  mempools := by
    refine List.forall_mem_cons.mpr ⟨⟨?_, resolved_long fun e he => List.mem_cons_of_mem _ he⟩,
      List.forall_mem_singleton.mpr ⟨?_, nofun⟩⟩
    · unfold MempoolLine.Named
      decide
    · unfold MempoolLine.Named
      decide
  sliceable := headTxs_sliceable (by decide)
  fits := dynamicBuckets_self _
  laterSliceable := List.forall_mem_singleton.mpr nofun
  laterIds := List.forall_mem_singleton.mpr List.nodup_nil

theorem totalSize_headTxs {l : List (U8 × U16)} (h : (l.map Prod.fst).Nodup) :
    totalSize (headTxs l h) = (l.map fun p => 62 + varintLen p.2.toNat + p.2.toNat).sum := by
  unfold totalSize headTxs
  rw [List.map_map]
  congr 1
  exact List.map_congr_left fun p _ => length_headBtx p.1 p.2

theorem longSent_hasIblt : longSent.HasIblt threeBuckets := by
  have hsize : totalSize longSent.line.block = 1128 := totalSize_headTxs (by decide)
  refine ⟨?_, rfl⟩
  rw [hsize]
  decide

theorem shortSent_hasIblt : ¬ shortSent.HasIblt threeBuckets := by
  have hsize : totalSize shortSent.line.block = 63 := totalSize_headTxs (by decide)
  rintro ⟨hlt, -⟩
  rw [hsize] at hlt
  exact absurd hlt (by decide)

/-- The table of the long block is sent, and `recover_block` is asked. The short block is sent as it
is. -/
theorem encode_decode_two : ∃ text b,
    encodeMain headHashes (fun _ _ => true) longSource threeBuckets ⟨none, []⟩
        (ofText (sentText [longSent, shortSent])) = .ok text ∧
      decodeMain headHashes (fun _ _ => true) longSource (fun _ => true) ⟨none, []⟩ (ofText text) =
        .ok (decodedLine (longSent.sentLine threeBuckets) 3 ['q'] b ++
          decodedLine (shortSent.sentLine threeBuckets) 0 ['q'] true) ∧
      Answers headHashes (fun _ _ => true) (fun _ => true) 3 1 (headTxs [(2, 1000)] (by decide))
        longBlock b := by
  obtain ⟨text, blocks, hencode, hdecode, hblocks⟩ := encode_decode headHashes
    (A := fun _ _ => true) (fun _ _ => rfl) longSource (fun _ => true) threeBuckets
    [longSent, shortSent]
    (List.forall_mem_cons.mpr ⟨longSent_sendable, List.forall_mem_singleton.mpr shortSent_sendable⟩)
    ⟨none, []⟩ ⟨none, []⟩
  obtain ⟨outs, rest, houts, hrest, rfl⟩ := List.forall₂_cons_left_iff.mp hblocks
  obtain ⟨outs', rest', houts', hrest', rfl⟩ := List.forall₂_cons_left_iff.mp hrest
  obtain rfl := List.forall₂_nil_left_iff.mp hrest'
  obtain ⟨out, tail, hout, htail, rfl⟩ := List.forall₂_cons_left_iff.mp houts
  obtain rfl := List.forall₂_nil_left_iff.mp htail
  obtain ⟨out', tail', hout', htail', rfl⟩ := List.forall₂_cons_left_iff.mp houts'
  obtain rfl := List.forall₂_nil_left_iff.mp htail'
  obtain ⟨b, rfl, hb⟩ := hout.of_hasIblt (fun _ => true) longSent_hasIblt
  rw [hout'.of_not_hasIblt (fun _ => true) shortSent_hasIblt] at hdecode
  have hbuckets : longSent.buckets threeBuckets = 3 := rfl
  rw [hbuckets] at hdecode
  exact ⟨text, b, hencode, by simpa using hdecode, hb⟩

end BitcoinIblt
