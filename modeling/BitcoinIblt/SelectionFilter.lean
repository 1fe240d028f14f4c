import BitcoinIblt.EncodeDecode
import BitcoinIblt.FeeEstimate
import BitcoinIblt.MixedDifference
import BitcoinIblt.SelectionHeuristic

/-!
# Selection, encoder and decoder

`main` of `iblt-selection-heuristic.cpp`, and the three filters in a row, as the repository uses
them. The first narrows the mempools of the later peers down to what they have of the block, the
second sends a table of the block, and the third recovers the block from it. When the later peers
know nothing that the first does not, whether the block is recovered is decided by the slices that
the peer misses alone (`pipeline_exact`): they can be peeled, and none of their transactions wraps
around.
-/

namespace BitcoinIblt

open IStream Passes Peeling RawIblt SignedTable

variable (H : Hashes) (src : TxSource)

/-! ## The selection -/

/-- `u64 seed = 1;` -/
def selectionSeed : U64 := 1

/-- `fee_hint` and the lists, which are set for the first peer. -/
structure Selected where
  feeHint : U64
  lists : SelectionLists

/-- What the selection does with a mempool line; the state is `none` for the first peer. -/
def selectMempool (line : BlockLine) (st : Option Selected) (l : MempoolLine) :
    Run (Option Selected × List Char) :=
  match st with
  | none => do
    let feeHint ← estimateFees line.block l.mempool
    let (lists, bytes) ← selectionSender H selectionSeed feeHint line.block l.mempool
    let line := { line with overhead := line.overhead + BitVec.ofNat 32 bytes.length }
    return (some ⟨feeHint, lists⟩, writeBlockline line ++ writeMempool l)
  | some sel => do
    let newmempool ← selectionReceiver H selectionSeed sel.feeHint sel.lists l.mempool
    return (some sel, writeMempool { l with mempool := newmempool })

/-- What the selection does with a block line. -/
def selectBody (line : BlockLine) (u : Unknowns) (s : IStream) :
    Filter (List Char × Unknowns × IStream) :=
  Filter.of (forMempools src (selectMempool H line) none u s)

theorem selectBody_rest_le {line : BlockLine} {u : Unknowns} {s : IStream}
    {r : List Char × Unknowns × IStream} (h : selectBody H src line u s = .ok r) :
    r.2.2.rest.length ≤ s.rest.length :=
  forMempools_rest_le src (of_filter_ok h)

/-- `main` of `iblt-selection-heuristic` on its input. -/
def selectMain (u : Unknowns) (input : IStream) : Filter (List Char) :=
  forBlocks src ⟨selectBody H src, selectBody_rest_le H src⟩ u input

/-! ## What is selected -/

namespace SentDesc

variable (o : EncodeOptions) (d : SentDesc)

/-- The description with more overhead. -/
def plus (n : ℕ) : SentDesc :=
  { d with line := { d.line with overhead := d.line.overhead + BitVec.ofNat 32 n } }

/-- The lists take `n` bytes, for the block and the first mempool in some order. -/
def SelectionBytes (n : ℕ) : Prop :=
  ∃ block mempool feeHint lists bytes, d.line.block.entries.Perm block.entries ∧
    d.first.mempool.entries.Perm mempool.entries ∧ estimateFees block mempool = .ok feeHint ∧
    selectionSender H selectionSeed feeHint block mempool = .ok (lists, bytes) ∧ bytes.length = n

/-- The later peers know nothing that the first does not, all transactions are found again, those
of the block can be cut, and the short ids are distinct under both seeds. -/
structure Selectable : Prop where
  block : d.line.block.Resolved src
  mempools : ∀ l ∈ d.first :: d.later, l.Named ∧ l.mempool.Resolved src
  known : ∀ l ∈ d.later, ∀ e ∈ l.mempool.entries, e ∈ d.first.mempool.entries
  keyed : d.first.mempool.Keyed
  hashed : d.line.block.Hashed H
  sliceable : ∀ e ∈ d.line.block.entries, Sliceable e.2.btx
  slices : ∀ e ∈ d.line.block.entries, (txSlices H o.seed e).length ≤ 0xffff
  fits : dynamicBuckets d.line.block d.first.mempool < 2 ^ 64
  firstIds : d.first.mempool.DistinctIds H selectionSeed
  blockIds : d.line.block.DistinctIds H o.seed
  /-- no count wraps around -/
  counts : ∀ l ∈ d.later, ∀ c : Fin (d.buckets o).toNat,
    load (hits H) (entrySlices H o.seed (d.line.block.sdiff l.mempool)) c < 65535

end SentDesc

/-- What the later mempool has of the block. -/
structure MempoolLine.Common (block : Txmap) (l l' : MempoolLine) : Prop where
  peername : l'.peername = l.peername
  mempool : ∀ e, e ∈ l'.mempool.entries ↔ e ∈ l.mempool.entries ∧ e.1 ∈ block.keys

/-- `d'` is what the selection makes of `d`. -/
structure Selects (d d' : SentDesc) : Prop where
  blocknum : d'.line.blocknum = d.line.blocknum
  overhead : ∃ n, d.SelectionBytes H n ∧
    d'.line.overhead = d.line.overhead + BitVec.ofNat 32 n
  block : d.line.block.entries.Perm d'.line.block.entries
  first : MempoolLine.Same d.first d'.first
  later : List.Forall₂ (MempoolLine.Common d.line.block) d.later d'.later

variable {H} {src} {o : EncodeOptions}

/-- Distinct ids are a matter of the entries. -/
theorem Txmap.DistinctIds.sub {m m' : Txmap} {seed : U64} (h : m.DistinctIds H seed)
    (hsub : ∀ e ∈ m'.entries, e ∈ m.entries) : m'.DistinctIds H seed :=
  m'.entries_nodup.map_on fun _ he _ he' heq =>
    List.inj_on_of_nodup_map h (hsub _ he) (hsub _ he') heq

/-- The receiver takes what it has of the block, if the sender knows it. -/
theorem selectionReceiver_common {seed : U64} (hseed : seed ≠ 0) {feeHint : U64}
    {block M₁ M₂ : Txmap} {pool : IbltPool} {lists : SelectionLists}
    (hpool : pool.Holds H seed M₁.entries)
    (hadded : Listed H seed pool (Exception feeHint block true) M₁.entries lists.added)
    (hremoved : Listed H seed pool (Exception feeHint block false) M₁.entries lists.removed)
    (hids : M₁.DistinctIds H seed) (hkeyed : M₁.Keyed)
    (hsub : ∀ e ∈ M₂.entries, e ∈ M₁.entries) :
    ∃ newmempool, selectionReceiver H seed feeHint lists M₂ = .ok newmempool ∧
      ∀ e, e ∈ newmempool.entries ↔ e ∈ M₂.entries ∧ e.1 ∈ block.keys := by
  obtain ⟨newmempool, hrecv, hnew, hkeys⟩ := selectionReceiver_ok hseed feeHint
    (hids.sub hsub) (fun e he => hkeyed e (hsub e he)) lists
  refine ⟨newmempool, hrecv, fun e => ?_⟩
  have hclass : ∀ e ∈ M₂.entries, e.1 ∈ newmempool.keys ↔ e.1 ∈ block.keys := by
    intro e he
    have he₁ := hsub e he
    rw [hkeys e he, hadded.hit_iff hpool hids he₁, hremoved.hit_iff hpool hids he₁, Exception,
      Exception]
    simp only [if_true, if_false, Bool.false_eq_true]
    tauto
  constructor
  · intro he
    exact ⟨hnew e he, (hclass e (hnew e he)).mp (List.mem_map.mpr ⟨e, he, rfl⟩)⟩
  · rintro ⟨he, hblock⟩
    obtain ⟨t, ht⟩ := UnorderedMap.mem_keys_iff.mp ((hclass e he).mpr hblock)
    rwa [UnorderedMap.value_unique (hnew _ ht) he] at ht

/-- The selection on a block that was written. -/
theorem selectBody_write {d : SentDesc} (hd : d.Selectable H src o) {line : BlockLine}
    (hline : BlockLine.ReadAs src d.line line) (u : Unknowns) {rest : List Char}
    (hrest : NextBlock rest) :
    ∃ d' u' s', selectBody H src line u (ofText (d.tail ++ rest)) =
        .ok (writeBlockline d'.line ++ d'.tail, u', s') ∧ StreamAt rest s' ∧ Selects H d d' := by
  obtain ⟨ls, hls, hloop⟩ := forMempools_write (selectMempool H line)
    (fun l hl => (hd.mempools l hl).1) hrest u (StreamAt.ofText _)
  have hsame := forall₂_same hls fun l hl => (hd.mempools l hl).2
  obtain ⟨first, later, hfirst, hlater, rfl⟩ := List.forall₂_cons_left_iff.mp hsame
  have hblock := hline.block.perm hd.block
  have hids : first.mempool.DistinctIds H selectionSeed :=
    hd.firstIds.sub fun e he => hfirst.mempool.mem_iff.mpr he
  have hkeyed : first.mempool.Keyed := fun e he => hd.keyed e (hfirst.mempool.mem_iff.mpr he)
  obtain ⟨feeHint, hfee, -⟩ := estimateFees_least line.block first.mempool
  obtain ⟨pool, lists, bytes, hpool, hsend, hadded, hremoved⟩ :=
    selectionSender_ok (show selectionSeed ≠ 0 by decide) feeHint line.block hids
  have heach : ∀ l ∈ d.later, ∀ l', MempoolLine.Same l l' → ∃ new,
      selectMempool H line (some ⟨feeHint, lists⟩) l' =
        .ok (some ⟨feeHint, lists⟩, writeMempool new) ∧
      MempoolLine.Common d.line.block l new := by
    intro l hl l' hl'
    have hknown : ∀ e ∈ l'.mempool.entries, e ∈ first.mempool.entries := fun e he =>
      hfirst.mempool.mem_iff.mp (hd.known l hl e (hl'.mempool.mem_iff.mpr he))
    obtain ⟨newmempool, hrecv, hmem⟩ := selectionReceiver_common
      (show selectionSeed ≠ 0 by decide) hpool hadded hremoved hids hkeyed hknown
    refine ⟨{ l' with mempool := newmempool }, ?_, hl'.peername, fun e => ?_⟩
    · unfold selectMempool
      dsimp only
      rw [hrecv]
      rfl
    · have hkeys : e.1 ∈ d.line.block.keys ↔ e.1 ∈ line.block.keys :=
        (hblock.map Prod.fst).mem_iff
      rw [hmem, hkeys, hl'.mempool.mem_iff]
  obtain ⟨news, hrun, hnews⟩ := runMempools_each writeMempool hlater heach
  let line₁ := { line with overhead := line.overhead + BitVec.ofNat 32 bytes.length }
  have hall : runMempools (selectMempool H line) none (first :: later) =
      .ok (writeBlockline line₁ ++ writeMempool first ++ news.flatMap writeMempool) := by
    have hstep : selectMempool H line none first =
        .ok (some ⟨feeHint, lists⟩, writeBlockline line₁ ++ writeMempool first) := by
      unfold selectMempool
      rw [hfee, ok_bind, hsend]
      rfl
    rw [runMempools, hstep, ok_bind]
    dsimp only
    rw [hrun]
    rfl
  obtain ⟨u', s', hfor, hat⟩ := hloop none _ hall
  refine ⟨⟨line₁, first, news⟩, u', s', ?_, hat, hline.blocknum, ⟨bytes.length,
    ⟨line.block, first.mempool, feeHint, lists, bytes, hblock, hfirst.mempool, hfee, hsend, rfl⟩,
    by rw [← hline.overhead]⟩, hblock, hfirst, hnews⟩
  unfold selectBody
  show Filter.of (forMempools src (selectMempool H line) none u (ofText
    ((d.first :: d.later).flatMap writeMempool ++ rest))) = _
  rw [hfor, List.append_assoc]
  rfl

/-- The selection on blocks that were written. -/
theorem selectMain_write {descs : List SentDesc} (h : ∀ d ∈ descs, d.Selectable H src o)
    (u : Unknowns) :
    ∃ ds, selectMain H src u (ofText (sentText descs)) = .ok (sentText ds) ∧
      List.Forall₂ (Selects H) descs ds :=
  forBlocks_write ⟨selectBody H src, selectBody_rest_le H src⟩ SentDesc.line
    SentDesc.tail (fun d : SentDesc => writeBlockline d.line ++ d.tail) (Selects H) descs
    (fun d hd _ u _ hline hrest => selectBody_write (h d hd) hline u hrest) u (StreamAt.ofText _)

/-! ## What was selected is sent -/

/-- What a peer has of the block is in the block. -/
theorem MempoolLine.Common.sub {block : Txmap} {l l' : MempoolLine}
    (h : MempoolLine.Common block l l') (hblock : block.Resolved src)
    (hl : l.mempool.Resolved src) : ∀ e ∈ l'.mempool.entries, e ∈ block.entries := by
  rintro ⟨k, t⟩ he
  obtain ⟨he, hk⟩ := (h.mempool _).mp he
  obtain ⟨t', ht'⟩ := UnorderedMap.mem_keys_iff.mp hk
  have heq : some t = some t' := (hl _ he).symm.trans (hblock (k, t') ht')
  cases heq
  exact ht'

/-- The peer misses of the block what it missed before the selection. -/
theorem MempoolLine.Common.sdiff_perm {block block' : Txmap} {l l' : MempoolLine}
    (h : MempoolLine.Common block l l') (hblock : block.entries.Perm block'.entries) :
    (block.sdiff l.mempool).Perm (block'.sdiff l'.mempool) := by
  have hkeys : ∀ e ∈ block.entries, (e.1 ∉ l.mempool.keys ↔ e.1 ∉ l'.mempool.keys) := by
    intro e he
    refine not_congr ⟨fun hk => ?_, fun hk => ?_⟩
    · obtain ⟨t, ht⟩ := UnorderedMap.mem_keys_iff.mp hk
      exact UnorderedMap.mem_keys_iff.mpr
        ⟨t, (h.mempool _).mpr ⟨ht, List.mem_map.mpr ⟨e, he, rfl⟩⟩⟩
    · obtain ⟨t, ht⟩ := UnorderedMap.mem_keys_iff.mp hk
      exact UnorderedMap.mem_keys_iff.mpr ⟨t, ((h.mempool _).mp ht).1⟩
  unfold Txmap.sdiff
  rw [List.filter_congr fun e he => decide_eq_decide.mpr (hkeys e he)]
  exact hblock.filter _

theorem Selects.buckets_eq {d d' : SentDesc} (h : Selects H d d') :
    d'.buckets o = d.buckets o := by
  unfold SentDesc.buckets EncodeOptions.buckets
  rw [dynamicBuckets_perm h.block h.first.mempool]

theorem Selects.hasIblt_iff {d d' : SentDesc} (h : Selects H d d') :
    d'.HasIblt o ↔ d.HasIblt o := by
  unfold SentDesc.HasIblt
  rw [h.buckets_eq, totalSize_perm h.block]

/-- What was selected can be sent. -/
theorem Selects.sendable {d d' : SentDesc} (h : Selects H d d') (hd : d.Selectable H src o) :
    d'.Sendable o H src := by
  have hlater : ∀ l' ∈ d'.later, l'.Named ∧
      ∀ e ∈ l'.mempool.entries, e ∈ d.line.block.entries := by
    intro l' hl'
    obtain ⟨l, hl, hcommon⟩ := forall₂_of_mem_right h.later hl'
    obtain ⟨hnamed, hresolved⟩ := hd.mempools l (List.mem_cons_of_mem _ hl)
    refine ⟨?_, hcommon.sub hd.block hresolved⟩
    unfold MempoolLine.Named
    rwa [hcommon.peername]
  refine ⟨hd.block.perm h.block, fun l hl => ?_,
    fun e he => hd.sliceable e (h.block.mem_iff.mpr he), ?_, fun l hl e he =>
      hd.sliceable e ((hlater l hl).2 e he), fun l hl => hd.blockIds.sub (hlater l hl).2⟩
  · rcases List.mem_cons.mp hl with rfl | hl
    · obtain ⟨hnamed, hresolved⟩ := hd.mempools d.first List.mem_cons_self
      refine ⟨?_, hresolved.perm h.first.mempool⟩
      unfold MempoolLine.Named
      rwa [h.first.peername]
    · exact ⟨(hlater l hl).1, fun e he => hd.block e ((hlater l hl).2 e he)⟩
  · rw [← dynamicBuckets_perm h.block h.first.mempool]
    exact hd.fits

/-! ## What is recovered -/

variable {A : Allocator} {junk : BucketType → Bool}

/-- What `recover_block` says of a peer that has nothing but a part of the block. -/
theorem answers_subset (hA : A.Succeeds) {size : ℕ} (hsize : 0 < size) {seed : U64}
    (hseed : seed ≠ 0) {M B : Txmap} (hsub : ∀ e ∈ M.entries, e ∈ B.entries) (hkeyed : M.Keyed)
    (hhashed : B.Hashed H) (hB : ∀ e ∈ B.entries, Sliceable e.2.btx)
    (hlen : ∀ e ∈ B.entries, (txSlices H seed e).length ≤ 0xffff) (hids : B.DistinctIds H seed)
    (hcounts : ∀ c : Fin size, load (hits H) (entrySlices H seed (B.sdiff M)) c < 65535) {b : Bool}
    (h : Answers H A junk size seed M B b) :
    b = true ↔ Peelable (hits H : TxSlice → Fin size → ℕ) (entrySlices H seed (B.sdiff M)) ∧
      NoneWraps H seed (B.sdiff M) := by
  obtain ⟨theirs, ours, htheirs, hours, hb⟩ := h
  have hagree : Txmap.Agree B M := (Txmap.agree_of_subset hsub).symm
  obtain ⟨theirs', ours', diff, htheirs', hours', hd, htable, hin⟩ :=
    new_ofTxmap (H := H) hsize hseed hagree hB (fun e he => hB e (hsub e he)) junk
  rw [htheirs] at htheirs'
  rw [hours] at hours'
  cases htheirs'
  cases hours'
  obtain ⟨pool, hp, hh⟩ := IbltPool.new_ok (H := H) hseed (hids.sub hsub)
  have hnone : M.sdiff B = [] := Txmap.sdiff_eq_nil hsub
  have hstart : Mixed H seed (B.sdiff M) (M.sdiff B) (M.inter B)
      (entrySlices H seed (B.sdiff M)) (M.sdiff B) ⟨diff, pool.txByTxid48, OrdSet.empty⟩ :=
    ⟨hin, htable, List.Perm.refl _, hh.byId.trans ((M.sdiff_append_inter B).symm.map _),
      List.Subperm.refl _, Iff.rfl⟩
  have hmix : Unmixed H size seed (entrySlices H seed (B.sdiff M)) (M.sdiff B) := by
    rw [hnone]
    exact ⟨fun c => Or.inr (Or.inl rfl), hcounts, fun c => by rw [load_nil]; decide⟩
  obtain ⟨b', st, hpeel, hfinish, hiff⟩ := hstart.answer hmix hsize hA hagree.symm hkeyed hhashed
    (fun e he => hB e (hsub e he)) (fun e he => hB e (List.mem_of_mem_filter he))
    (fun e he => hlen e (List.mem_of_mem_filter he)) hids
    (by rw [hnone]; exact fun e he => absurd he List.not_mem_nil)
  rw [recoverBlock_of_peel H hd hp hpeel, hfinish] at hb
  cases hb
  have hitems : itemsOf (entrySlices H seed (B.sdiff M)) (M.sdiff B) =
      (entrySlices H seed (B.sdiff M)).map Sum.inl := by
    rw [hnone]
    exact List.append_nil _
  rw [hiff, hitems, peelable_map Sum.inl_injective]
  exact Iff.rfl

variable (H) in
/-- The slices of the block that a peer misses can be peeled, and none of their transactions wraps
around. -/
def SentDesc.Peels (o : EncodeOptions) (d : SentDesc) (l : MempoolLine) : Prop :=
  Peelable (hits H : TxSlice → Fin (d.buckets o).toNat → ℕ)
      (entrySlices H o.seed (d.line.block.sdiff l.mempool)) ∧
    NoneWraps H o.seed (d.line.block.sdiff l.mempool)

variable (H) in
/-- A line of the decoder at the end of the row, where the selection has added `n` bytes. With a
table, it says whether what the peer misses can be peeled; without one, that the block is there. -/
structure SentDesc.Recovered (o : EncodeOptions) (d : SentDesc) (n : ℕ) (l : MempoolLine)
    (out : List Char) : Prop where
  table : d.HasIblt o → ∃ b,
    out = decodedLine ((d.plus n).sentLine o) (d.buckets o) l.peername b ∧
      (b = true ↔ d.Peels H o l)
  plain : ¬ d.HasIblt o → out = decodedLine ((d.plus n).sentLine o) 0 l.peername true

/-- A line that the decoder prints for what was selected. -/
theorem Selects.recovered (hA : A.Succeeds) {d d' : SentDesc} (hd : d.Selectable H src o)
    (h : Selects H d d') {n : ℕ} (hn : d'.line.overhead = d.line.overhead + BitVec.ofNat 32 n)
    {l l' : MempoolLine} (hl : l ∈ d.later) (hcommon : MempoolLine.Common d.line.block l l')
    {out : List Char} (hout : d'.Decoded H A junk o l' out) : d.Recovered H o n l out := by
  have hbuckets := h.buckets_eq (o := o)
  have hiblt := h.hasIblt_iff (o := o)
  have hbytes : d'.sentBytes o = (d.plus n).sentBytes o := by
    show d'.sentBytes o = d.sentBytes o
    unfold SentDesc.sentBytes
    simp only [hiblt, hbuckets, totalSize_perm h.block]
  have hprint : ∀ ibltslices b, decodedLine (d'.sentLine o) ibltslices l'.peername b =
      decodedLine ((d.plus n).sentLine o) ibltslices l.peername b := by
    intro ibltslices b
    unfold decodedLine SentDesc.sentLine
    rw [hbytes, hcommon.peername]
    simp only [h.blocknum, hn]
    rfl
  refine ⟨fun hyes => ?_, fun hno => ?_⟩
  · obtain ⟨b, rfl, hb⟩ := hout.of_hasIblt junk (hiblt.mpr hyes)
    rw [hbuckets] at hb
    rw [hbuckets, hprint]
    refine ⟨b, rfl, ?_⟩
    have hsub : ∀ e ∈ l'.mempool.entries, e ∈ d'.line.block.entries := fun e he =>
      h.block.mem_iff.mp
        (hcommon.sub hd.block (hd.mempools l (List.mem_cons_of_mem _ hl)).2 e he)
    have hperm := hcommon.sdiff_perm h.block
    have hslices : (entrySlices H o.seed (d.line.block.sdiff l.mempool)).Perm
        (entrySlices H o.seed (d'.line.block.sdiff l'.mempool)) := hperm.flatMap_right _
    have hkeyed : l'.mempool.Keyed := fun e he =>
      hd.keyed e (hd.known l hl e ((hcommon.mempool e).mp he).1)
    have hiff := answers_subset hA
      (show 0 < (d.buckets o).toNat from o.buckets_pos hd.fits) o.seed_ne hsub hkeyed
      (fun e he => hd.hashed e (h.block.mem_iff.mpr he))
      (fun e he => hd.sliceable e (h.block.mem_iff.mpr he))
      (fun e he => hd.slices e (h.block.mem_iff.mpr he))
      (hd.blockIds.sub fun e he => h.block.mem_iff.mpr he)
      (fun c => by rw [← load_perm hslices]; exact hd.counts l hl c) hb
    have hpeel : Peelable (hits H : TxSlice → Fin (d.buckets o).toNat → ℕ)
        (entrySlices H o.seed (d'.line.block.sdiff l'.mempool)) ↔
        Peelable (hits H : TxSlice → Fin (d.buckets o).toNat → ℕ)
          (entrySlices H o.seed (d.line.block.sdiff l.mempool)) :=
      ⟨fun hp => hp.perm hslices.symm, fun hp => hp.perm hslices⟩
    have hwraps : NoneWraps H o.seed (d'.line.block.sdiff l'.mempool) ↔
        NoneWraps H o.seed (d.line.block.sdiff l.mempool) := by
      unfold NoneWraps
      simp only [hperm.mem_iff]
    rw [hiff, hpeel, hwraps]
    exact Iff.rfl
  · rw [hout.of_not_hasIblt junk fun h' => hno (hiblt.mp h'), hprint]

/-- **Selection, encoder and decoder in a row.** If the later peers know nothing that the first does
not, the three filters come to their ends. For each block the last prints one line for each later
peer, with the number of the block and its overhead with the bytes of the lists and those of the
table or of the block. If a table was sent, the line has its buckets, and says whether the block was
recovered, which is decided by the slices of the block that the peer misses: they can be peeled one
after the other, and no transaction wraps. If not, it has no buckets and says that the block is
there. -/
theorem pipeline_exact (H : Hashes) {A : Allocator} (hA : A.Succeeds) (src : TxSource)
    (junk : BucketType → Bool) (o : EncodeOptions) (descs : List SentDesc)
    (h : ∀ d ∈ descs, d.Selectable H src o) (u u' u'' : Unknowns) :
    ∃ selected encoded blocks,
      selectMain H src u (ofText (sentText descs)) = .ok selected ∧
      encodeMain H A src o u' (ofText selected) = .ok encoded ∧
      decodeMain H A src junk u'' (ofText encoded) = .ok (blocks.flatMap List.flatten) ∧
      List.Forall₂ (fun d outs => ∃ n, d.SelectionBytes H n ∧
        List.Forall₂ (d.Recovered H o n) d.later outs) descs blocks := by
  obtain ⟨ds, hselect, hds⟩ := selectMain_write h u
  have hsend : ∀ d' ∈ ds, d'.Sendable o H src := by
    intro d' hd'
    obtain ⟨d, hd, hsel⟩ := forall₂_of_mem_right hds hd'
    exact hsel.sendable (h d hd)
  obtain ⟨es, hencode, hes⟩ := encodeMain_write hA hsend u'
  obtain ⟨blocks, hdecode, hblocks⟩ := decodeMain_write junk hA hsend hes u''
  refine ⟨_, _, blocks, hselect, hencode, hdecode, ?_⟩
  clear hselect hencode hdecode hes hsend
  induction hds generalizing blocks with
  | nil =>
    rw [List.forall₂_nil_left_iff.mp hblocks]
    exact List.Forall₂.nil
  | @cons d d' descs ds hsel _ ih =>
    obtain ⟨hd, hrest⟩ := List.forall_mem_cons.mp h
    obtain ⟨outs, blocks, houts, hblocks', rfl⟩ := List.forall₂_cons_left_iff.mp hblocks
    refine List.Forall₂.cons ?_ (ih hrest blocks hblocks')
    obtain ⟨n, hbytes, hn⟩ := hsel.overhead
    refine ⟨n, hbytes, ?_⟩
    exact forall₂_comp hsel.later houts fun l hl l' hl' out hout =>
      hsel.recovered hA hd hn hl hl' hout

/-- The second peer of the long block lacks one transaction. -/
theorem longSent_lacks : longSent.line.block.sdiff (headTxs [(2, 1000)] (by decide)) =
    [headEntry (1, 0)] :=
  headTxs_sdiff (by decide) (by decide)

theorem longSent_selectable : longSent.Selectable headHashes longSource threeBuckets where
  block := longSent_sendable.block
  mempools := longSent_sendable.mempools
  known := by
    refine List.forall_mem_singleton.mpr fun e he => ?_
    rw [List.mem_singleton.mp he]
    exact List.mem_cons_self
  keyed := headTxs_keyed (by decide)
  hashed := headTxs_hashed (by decide)
  sliceable := longSent_sendable.sliceable
  slices := by
    intro e he
    obtain ⟨p, -, rfl⟩ := List.mem_map.mp he
    exact slicesOf_headBtx_le headHashes p.1 p.2 _
  fits := longSent_sendable.fits
  firstIds := headTxs_distinctIds (by decide) selectionSeed
  blockIds := headTxs_distinctIds (by decide) 1
  counts := by
    refine List.forall_mem_singleton.mpr fun c => ?_
    obtain ⟨s, hs, hhits⟩ := entrySlices_headEntry 1 1
    rw [longSent_lacks]
    show load (hits headHashes) (entrySlices headHashes 1 [headEntry (1, 0)]) c < 65535
    have hle : hits headHashes s c ≤ 3 := by
      rw [hhits]
      exact List.count_le_length
    rw [hs, load_cons, load_nil]
    omega

/-- What it lacks is alone in three buckets. -/
theorem longSent_peels :
    longSent.Peels headHashes threeBuckets ⟨['q'], headTxs [(2, 1000)] (by decide)⟩ := by
  obtain ⟨s, hs, hhits⟩ := entrySlices_headEntry 1 1
  unfold SentDesc.Peels
  rw [longSent_lacks]
  refine ⟨?_, noneWraps_headEntry 1 (by decide)⟩
  show Peelable (hits headHashes : TxSlice → Fin 3 → ℕ)
    (entrySlices headHashes 1 [headEntry (1, 0)])
  have hone : hits headHashes s (0 : Fin 3) = 1 := by
    rw [hhits]
    decide
  rw [hs]
  refine ⟨[s], List.Perm.refl _, ⟨0, ?_, ?_⟩, trivial⟩
  · rw [hone]
    decide
  · rw [load_cons, load_nil, hone]

/-- The block is recovered from the table, with the one transaction that the second peer lacks. -/
theorem pipeline_exact_long : ∃ selected encoded n,
    selectMain headHashes longSource ⟨none, []⟩ (ofText (sentText [longSent])) = .ok selected ∧
      encodeMain headHashes (fun _ _ => true) longSource threeBuckets ⟨none, []⟩
        (ofText selected) = .ok encoded ∧
      decodeMain headHashes (fun _ _ => true) longSource (fun _ => true) ⟨none, []⟩
        (ofText encoded) =
          .ok (decodedLine ((longSent.plus n).sentLine threeBuckets) 3 ['q'] true) := by
  obtain ⟨selected, encoded, blocks, hselect, hencode, hdecode, hblocks⟩ :=
    pipeline_exact headHashes (A := fun _ _ => true) (fun _ _ => rfl) longSource (fun _ => true)
      threeBuckets [longSent] (List.forall_mem_singleton.mpr longSent_selectable)
      ⟨none, []⟩ ⟨none, []⟩ ⟨none, []⟩
  obtain ⟨outs, rest, ⟨n, -, houts⟩, hrest, rfl⟩ := List.forall₂_cons_left_iff.mp hblocks
  obtain rfl := List.forall₂_nil_left_iff.mp hrest
  obtain ⟨out, tail, hout, htail, rfl⟩ := List.forall₂_cons_left_iff.mp houts
  obtain rfl := List.forall₂_nil_left_iff.mp htail
  obtain ⟨b, rfl, hb⟩ := hout.table longSent_hasIblt
  have hbuckets : longSent.buckets threeBuckets = 3 := rfl
  rw [hb.mpr longSent_peels, hbuckets] at hdecode
  exact ⟨selected, encoded, n, hselect, hencode, by simpa using hdecode⟩

end BitcoinIblt
