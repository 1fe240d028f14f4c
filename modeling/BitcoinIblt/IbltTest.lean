import BitcoinIblt.Corpus
import BitcoinIblt.Lib.Passes
import BitcoinIblt.MinDecode

/-!
# The test driver

`main` of `iblt-test.cpp`: each round the first peer generates the next block out of its corpus, the
search for the least table is run for every other peer, and all replay their corpora up to the block
after.

Over a whole run, the other peers know what the entries make that they have read. The generator does
so only but for one entry for each round: its block ends at an entry that is no part of it, and
`next_block` begins by reading the one after (`testRuns_replay`).

In every state that the driver reaches, the mempools were read from the files
(`TestReachable.reads`), so that the assumptions of the full protocol are met but for those on the
ids and the sizes. Under these, a round whose entries can be read ends, and reports a border for
every peer (`testRound_exact`).
-/

namespace BitcoinIblt

open Passes RawIblt Transition

variable (H : Hashes) (A : Allocator) (grabFile : List Char → Option (List U8))

/-! ## The block -/

/-- The variables of the first loop of `generate_block`. -/
structure CollectedBlock where
  cb : Tx
  block : UnorderedSet Tx
  blocksize : ℕ
  known : ℕ
  unknown : ℕ
  peer : Peer

/-- "These two cover the entire block contents." -/
def collectTurn (b : CollectedBlock) : Filter (Option CollectedBlock) := do
  let txid := txidFromCorpus b.peer.e
  match b.peer.e.type with
  | .UNKNOWN =>
    if (b.peer.mp.find txid).isSome then throw (.fault .assertion)
    else
      match ← getTx H A grabFile txid true with
      | none => throw (.fault .nullPointer)
      | some t =>
        return some { b with
          block := b.block.insert t
          blocksize := b.blocksize + t.btx.length
          unknown := b.unknown + t.btx.length
          peer := b.peer.add t }
  | .KNOWN =>
    match b.peer.mp.find txid with
    | none => throw (.fault .nullPointer)
    | some t =>
      return some { b with
        block := b.block.insert t
        blocksize := b.blocksize + t.btx.length
        known := b.known + t.btx.length }
  | _ => return none

/-- "Top up mempool with any txs we didn't know, get all txs in the block." -/
def collectEntries (b : CollectedBlock) : List CorpusEntry → Filter CollectedBlock
  | [] => return b
  | e :: rest => do
    let b := { b with peer := { b.peer with e, rest } }
    match ← collectTurn H A grabFile b with
    | none => return b
    | some b => collectEntries b rest

/-- `generate_block` up to its lists, which are `generateBlock`. -/
def collectBlock (blocknum : ℕ) (p : Peer) : Filter CollectedBlock := do
  if p.e.type ≠ .COINBASE then
    throw (.errx ("Expected coinbase for block " ++ toString blocknum))
  else
    match ← getTx H A grabFile (txidFromCorpus p.e) true with
    | none => throw (.fault .nullPointer)
    | some cb => collectEntries H A grabFile ⟨cb, UnorderedSet.empty, cb.btx.length, 0, 0, p⟩ p.rest

/-- `mempool::length` -/
def mempoolLength (m : Txmap) : ℕ := (m.entries.map fun e => e.2.btx.length).sum

/-! ## The rounds -/

/-- The first peer generates. -/
structure TestState where
  blocknum : ℕ
  seed : U64
  generator : Peer
  peers : List Peer

/-- A line of the output. -/
structure TestRow where
  blocknum : ℕ
  blocksize : ℕ
  known : ℕ
  unknown : ℕ
  mempool : ℕ
  addedLength : ℕ
  removedLength : ℕ
  results : List MinDecoded

/-- "See how small we can encode it for each peer." -/
def searchAll (past : ℕ → ℕ → U8) (junk : ℕ → ℕ → BucketType → Bool) (seed : U64)
    (b : CollectedBlock) (r : GeneratedBlock) (peers : List Peer) : Filter (List MinDecoded) :=
  peers.zipIdx.mapM fun pi => Filter.of (minDecode H A
    (DecodeTask.ofBlock (past pi.2) (junk pi.2) b.block assumedMinFee b.cb.btx pi.1.mp seed r))

/-- A turn of the loop of `main`. -/
def testRound (past : ℕ → ℕ → U8) (junk : ℕ → ℕ → BucketType → Bool) (st : TestState) :
    Filter (TestRow × TestState) := do
  let seed := st.seed + 1
  -- "Peer 0 generates a block."
  let b ← collectBlock H A grabFile st.blocknum st.generator
  let r ← Filter.of (generateBlock H seed assumedMinFee b.peer.mp b.block)
  let results ← searchAll H A past junk seed b r st.peers
  let generator ← nextBlock H A grabFile (st.blocknum + 1) { b.peer with mp := r.mempool }
  let peers ← st.peers.mapM (nextBlock H A grabFile (st.blocknum + 1))
  return (⟨st.blocknum, b.blocksize, b.known, b.unknown, mempoolLength b.peer.mp, r.addedLength,
    r.removedLength, results⟩, ⟨st.blocknum + 1, seed, generator, peers⟩)

/-- `p.open` -/
def openPeer (file : String) : List CorpusEntry → Filter Peer
  | [] => throw (.errx ("Opening " ++ file))
  | e :: rest => return ⟨file, UnorderedMap.empty, UnorderedSet.empty, e, rest⟩

/-- A turn of the loop that opens the corpora. -/
def startPeer (blocknum : ℕ) (corpus : String × List CorpusEntry) : Filter Peer := do
  let p ← openPeer corpus.1 corpus.2
  forwardToBlock H A grabFile blocknum p

/-- "Open corpuses." -/
def startTest (blocknum : ℕ) (seed : U64) (corpora : List (String × List CorpusEntry)) :
    Filter TestState := do
  let peers ← corpora.mapM (startPeer H A grabFile blocknum)
  match peers with
  | [] => throw (.errx "Usage: [--range=a,b] [--seed=<seed>] <generator-corpus> <peer-corpus>...")
  | generator :: peers => return ⟨blocknum, seed, generator, peers⟩

/-- A round that ends, whatever lies past the ends of buffers and whatever was not initialized. -/
def TestStep (st st' : TestState) : Prop :=
  ∃ past junk row, testRound H A grabFile past junk st = .ok (row, st')

/-- The states between the rounds. -/
def TestReachable (blocknum : ℕ) (seed : U64) (corpora : List (String × List CorpusEntry)) :
    TestState → Prop :=
  Reachable (fun st => startTest H A grabFile blocknum seed corpora = .ok st)
    (TestStep H A grabFile)

/-! ## What the mempools hold -/

/-- The peer holds something: its mempool was read from the files. -/
def Peer.Reads (p : Peer) : Prop := ∃ known, p.Holds H A grabFile known

variable {H} {A} {grabFile}

theorem Peer.Holds.reads {p : Peer} {known : Set BitcoinTxid} (h : p.Holds H A grabFile known) :
    p.Reads H A grabFile :=
  ⟨known, h⟩

/-- A smaller mempool was read, too. -/
theorem Peer.Reads.sub {p : Peer} (h : p.Reads H A grabFile) {mp : Txmap}
    (hsub : ∀ e ∈ mp.entries, e ∈ p.mp.entries) : { p with mp }.Reads H A grabFile := by
  obtain ⟨known, h⟩ := h
  exact ⟨{x | x ∈ mp.keys ∨ x ∈ p.unknown}, fun e he => h.mp e (hsub e he), h.unknown,
    fun x => Iff.rfl⟩

theorem nextBlock_reads {blocknum : ℕ} {p p' : Peer} (h : p.Reads H A grabFile)
    (hrun : nextBlock H A grabFile blocknum p = .ok p') : p'.Reads H A grabFile := by
  obtain ⟨known, h⟩ := h
  obtain ⟨pre, -, -, -, hend⟩ := nextEntries_sound h hrun
  exact hend.reads

theorem forwardTx_reads {p p' : Peer} (h : p.Reads H A grabFile)
    (hrun : forwardTx H A grabFile p = .ok p') : p'.Reads H A grabFile := by
  obtain ⟨known, h⟩ := h
  obtain ⟨r, hr, hrun⟩ := of_bind_ok hrun
  cases r with
  | some t =>
    dsimp only at hrun
    split_ifs at hrun
    cases hrun
    exact (h.add hr).reads
  | none =>
    cases hrun
    exact (h.addUnknown hr).reads

theorem forwardTurn_reads {blocknum : ℕ} {prevBlock prevBlock' : Bool} {p p' : Peer}
    (h : p.Reads H A grabFile)
    (hrun : forwardTurn H A grabFile blocknum prevBlock p = .ok (some (prevBlock', p'))) :
    p'.Reads H A grabFile := by
  unfold forwardTurn at hrun
  cases htype : p.e.type with
  | COINBASE =>
    simp only [htype] at hrun
    obtain ⟨b, -, hrun⟩ := of_bind_ok hrun
    split_ifs at hrun
    all_goals cases hrun
    all_goals exact h
  | INCOMING_TX =>
    simp only [htype] at hrun
    split_ifs at hrun
    · obtain ⟨p₁, hp₁, hrun⟩ := of_bind_ok hrun
      cases hrun
      exact forwardTx_reads h hp₁
    · cases hrun
      exact h
  | MEMPOOL_ONLY =>
    simp only [htype] at hrun
    split_ifs at hrun
    · obtain ⟨p₁, hp₁, hrun⟩ := of_bind_ok hrun
      cases hrun
      exact forwardTx_reads h hp₁
    · cases hrun
      exact h
  | KNOWN =>
    simp only [htype] at hrun
    cases hrun
    exact h
  | UNKNOWN =>
    simp only [htype] at hrun
    cases hrun
    exact h

theorem forwardEntries_reads {blocknum : ℕ} {prevBlock : Bool} {p p' : Peer} {l : List CorpusEntry}
    (h : p.Reads H A grabFile)
    (hrun : forwardEntries H A grabFile blocknum prevBlock p l = .ok p') :
    p'.Reads H A grabFile := by
  induction l generalizing prevBlock p with
  | nil => cases hrun
  | cons e rest ih =>
    obtain ⟨known, h⟩ := h
    obtain ⟨r, hturn, hrun⟩ := of_bind_ok hrun
    have hmoved : { p with e, rest }.Reads H A grabFile := (h.move e rest).reads
    cases r with
    | none =>
      cases hrun
      exact hmoved
    | some r => exact ih (forwardTurn_reads hmoved hturn) hrun

theorem forwardToBlock_reads {blocknum : ℕ} {p p' : Peer} (h : p.Reads H A grabFile)
    (hrun : forwardToBlock H A grabFile blocknum p = .ok p') : p'.Reads H A grabFile := by
  induction blocknum using Nat.strong_induction_on generalizing p p' with
  | _ blocknum ih =>
    rw [forwardToBlock] at hrun
    split_ifs at hrun with horphan
    · have := of_decide_eq_true horphan
      obtain ⟨p₁, h₁, hrun⟩ := of_bind_ok hrun
      obtain ⟨p₂, h₂, hrun⟩ := of_bind_ok hrun
      exact nextBlock_reads (nextBlock_reads (ih _ (by omega) h h₁) h₂) hrun
    · exact forwardEntries_reads h hrun

/-! ## What a block holds -/

/-- From a peer that knew `known`, the entries `pre` have been collected: the block has their
transactions, which are in the mempool, and nothing else has changed. -/
structure CollectedBlock.Collects (H : Hashes) (A : Allocator)
    (grabFile : List Char → Option (List U8)) (known : Set BitcoinTxid) (pre : List CorpusEntry)
    (b : CollectedBlock) : Prop where
  holds : ∃ known', b.peer.Holds H A grabFile known' ∧
    ∀ x, (∀ e ∈ pre, txidFromCorpus e ≠ x) → (x ∈ known' ↔ x ∈ known)
  sub : ∀ t ∈ b.block, (t.txid, t) ∈ b.peer.mp.entries
  txids : ∀ x, (∃ t ∈ b.block, t.txid = x) ↔ ∃ e ∈ pre, txidFromCorpus e = x
  types : ∀ e ∈ pre, e.type = .KNOWN ∨ e.type = .UNKNOWN ∧ txidFromCorpus e ∉ known

section Collect

variable {known : Set BitcoinTxid} {pre : List CorpusEntry} {b : CollectedBlock}
  (h : b.Collects H A grabFile known pre)

include h

theorem CollectedBlock.Collects.reads : b.peer.Reads H A grabFile := by
  obtain ⟨known', hknown, -⟩ := h.holds
  exact hknown.reads

theorem CollectedBlock.Collects.move (e : CorpusEntry) (rest : List CorpusEntry) :
    { b with peer := { b.peer with e, rest } }.Collects H A grabFile known pre := by
  obtain ⟨known', hknown, hsame⟩ := h.holds
  exact ⟨⟨known', hknown.move e rest, hsame⟩, h.sub, h.txids, h.types⟩

/-- The transaction of an entry is put into the block, and into the mempool if it was not there. -/
theorem CollectedBlock.Collects.put {b' : CollectedBlock} {t : Tx}
    (ht : t.txid = txidFromCorpus b.peer.e)
    (htype : b.peer.e.type = .KNOWN ∨ b.peer.e.type = .UNKNOWN ∧ txidFromCorpus b.peer.e ∉ known)
    (hblock : b'.block = b.block.insert t)
    (hmem : ∀ e, e ∈ b.peer.mp.entries ∨ e = (t.txid, t) → e ∈ b'.peer.mp.entries)
    (hknown : ∀ known', b.peer.Holds H A grabFile known' →
      b'.peer.Holds H A grabFile (insert t.txid known')) :
    b'.Collects H A grabFile known (pre ++ [b.peer.e]) := by
  obtain ⟨known', hholds, hsame⟩ := h.holds
  refine ⟨⟨_, hknown known' hholds, fun x hx => ?_⟩, fun t' ht' => ?_, fun x => ?_, fun e he => ?_⟩
  · obtain ⟨hpre, hlast⟩ := List.forall_mem_append.mp hx
    rw [Set.mem_insert_iff, ← hsame x hpre, or_iff_right]
    rintro rfl
    exact hlast b.peer.e (List.mem_singleton.mpr rfl) ht.symm
  · rw [hblock] at ht'
    rcases UnorderedSet.mem_insert.mp ht' with rfl | ht'
    · exact hmem _ (Or.inr rfl)
    · exact hmem _ (Or.inl (h.sub t' ht'))
  · have hold := h.txids x
    simp only [hblock, UnorderedSet.mem_insert, List.mem_append, List.mem_singleton, or_and_right,
      exists_or, exists_eq_left, hold, ht]
    exact or_comm
  · rcases List.mem_append.mp he with he | he
    · exact h.types e he
    · rw [List.mem_singleton.mp he]
      exact htype

/-- A transaction that can be read and is not in the mempool was not known. -/
theorem CollectedBlock.Collects.fresh {x : BitcoinTxid} {t : Tx}
    (hread : getTx H A grabFile x false = .ok (some t)) (hx : x ∉ b.peer.mp.keys) : x ∉ known := by
  obtain ⟨known', hknown, hsame⟩ := h.holds
  have hpre : ∀ e ∈ pre, txidFromCorpus e ≠ x := by
    intro e he heq
    obtain ⟨t', ht', htxid⟩ := (h.txids x).mpr ⟨e, he, heq⟩
    exact hx (UnorderedMap.mem_keys_iff.mpr ⟨t', htxid ▸ h.sub t' ht'⟩)
  rw [← hsame x hpre, hknown.mem_iff, not_or]
  exact ⟨hx, fun hu => nomatch hread.symm.trans (hknown.unknown x hu)⟩

theorem collectTurn_collects {b' : CollectedBlock}
    (hrun : collectTurn H A grabFile b = .ok (some b')) :
    b'.Collects H A grabFile known (pre ++ [b.peer.e]) ∧ b'.peer.rest = b.peer.rest := by
  unfold collectTurn at hrun
  cases htype : b.peer.e.type with
  | UNKNOWN =>
    simp only [htype] at hrun
    split_ifs at hrun with hfind
    obtain ⟨r, hr, hrun⟩ := of_bind_ok hrun
    cases r with
    | none => cases hrun
    | some t =>
      cases hrun
      obtain ⟨htxid, -, hread⟩ := of_getTx hr
      rw [Option.not_isSome_iff_eq_none, UnorderedMap.find_eq_none_iff] at hfind
      have hnew : ∀ t', (t.txid, t') ∉ b.peer.mp.entries := by
        rw [htxid]
        exact fun t' ht' => hfind (UnorderedMap.mem_keys_iff.mpr ⟨t', ht'⟩)
      refine ⟨h.put htxid (Or.inr ⟨htype, h.fresh hread hfind⟩) rfl (fun e he => ?_)
        fun known' hknown => ?_, rfl⟩
      · exact UnorderedMap.mem_insert.mpr (he.imp_right fun he => ⟨he, hnew⟩)
      · rw [← htxid] at hread
        exact hknown.add hread
  | KNOWN =>
    simp only [htype] at hrun
    cases hfind : b.peer.mp.find (txidFromCorpus b.peer.e) with
    | none =>
      rw [hfind] at hrun
      cases hrun
    | some t =>
      rw [hfind] at hrun
      cases hrun
      have hmem := UnorderedMap.find_eq_some_iff.mp hfind
      obtain ⟨known', hknown', -⟩ := h.holds
      have htxid : t.txid = txidFromCorpus b.peer.e := (of_getTx (hknown'.mp _ hmem)).1
      refine ⟨h.put htxid (Or.inl htype) rfl (fun e he => ?_) fun known'' hknown => ?_, rfl⟩
      · rcases he with he | rfl
        · exact he
        · rw [htxid]
          exact hmem
      · have hin : t.txid ∈ known'' := (hknown.mem_iff _).mpr
          (Or.inl (UnorderedMap.mem_keys_iff.mpr ⟨t, htxid ▸ hmem⟩))
        rw [Set.insert_eq_of_mem hin]
        exact ⟨hknown.mp, hknown.unknown, hknown.mem_iff⟩
  | COINBASE =>
    simp only [htype] at hrun
    cases hrun
  | INCOMING_TX =>
    simp only [htype] at hrun
    cases hrun
  | MEMPOOL_ONLY =>
    simp only [htype] at hrun
    cases hrun

end Collect

/-- The loop stops at an entry that is no part of a block. -/
theorem collectTurn_none {b : CollectedBlock} (hrun : collectTurn H A grabFile b = .ok none) :
    b.peer.e.type ≠ .KNOWN ∧ b.peer.e.type ≠ .UNKNOWN := by
  unfold collectTurn at hrun
  refine ⟨fun htype => ?_, fun htype => ?_⟩
  · simp only [htype] at hrun
    split at hrun
    · cases hrun
    · cases hrun
  · simp only [htype] at hrun
    split_ifs at hrun
    obtain ⟨r, -, hrun⟩ := of_bind_ok hrun
    cases r with
    | none => cases hrun
    | some t => cases hrun

/-- The loop collects the entries of the block, and stops behind the entry after them. -/
theorem collectEntries_collects {known : Set BitcoinTxid} {pre : List CorpusEntry}
    {b b' : CollectedBlock} (h : b.Collects H A grabFile known pre) {l : List CorpusEntry}
    (hl : b.peer.rest = l) (hrun : collectEntries H A grabFile b l = .ok b') :
    ∃ pre', b'.Collects H A grabFile known (pre ++ pre') ∧
      ((l = pre' ++ b'.peer.e :: b'.peer.rest ∧
          b'.peer.e.type ≠ .KNOWN ∧ b'.peer.e.type ≠ .UNKNOWN) ∨
        l = pre' ∧ b'.peer.rest = []) := by
  induction l generalizing b pre with
  | nil =>
    cases hrun
    exact ⟨[], by rwa [List.append_nil], Or.inr ⟨rfl, hl⟩⟩
  | cons e rest ih =>
    obtain ⟨r, hturn, hrun⟩ := of_bind_ok hrun
    cases r with
    | none =>
      cases hrun
      exact ⟨[], by rw [List.append_nil]; exact h.move e rest,
        Or.inl ⟨rfl, collectTurn_none hturn⟩⟩
    | some b₁ =>
      obtain ⟨hcollects, hrest⟩ := collectTurn_collects (h.move e rest) hturn
      obtain ⟨pre', hcollects, hend⟩ := ih hcollects hrest hrun
      rw [List.append_assoc] at hcollects
      exact ⟨e :: pre', hcollects, hend.imp (fun hl => ⟨by rw [hl.1]; rfl, hl.2⟩)
        fun hl => ⟨by rw [hl.1], hl.2⟩⟩

theorem collectBlock_collects {blocknum : ℕ} {p : Peer} {b : CollectedBlock}
    {known : Set BitcoinTxid} (h : p.Holds H A grabFile known)
    (hrun : collectBlock H A grabFile blocknum p = .ok b) :
    ∃ pre, b.Collects H A grabFile known pre ∧
      ((p.rest = pre ++ b.peer.e :: b.peer.rest ∧
          b.peer.e.type ≠ .KNOWN ∧ b.peer.e.type ≠ .UNKNOWN) ∨
        p.rest = pre ∧ b.peer.rest = []) := by
  unfold collectBlock at hrun
  split_ifs at hrun
  obtain ⟨r, -, hrun⟩ := of_bind_ok hrun
  cases r with
  | none => cases hrun
  | some cb =>
    have hstart : (⟨cb, UnorderedSet.empty, cb.btx.length, 0, 0, p⟩ : CollectedBlock).Collects
        H A grabFile known [] :=
      ⟨⟨known, h, fun x _ => Iff.rfl⟩, fun t ht => absurd ht (UnorderedSet.not_mem_empty t),
        fun x => iff_of_false (fun ⟨t, ht, _⟩ => UnorderedSet.not_mem_empty t ht)
          fun ⟨e, he, _⟩ => absurd he List.not_mem_nil, fun e he => absurd he List.not_mem_nil⟩
    exact collectEntries_collects hstart rfl hrun

/-- The mempool without the block. -/
def Peer.without (p : Peer) (block : UnorderedSet Tx) : Peer :=
  { p with mp := block.toList.foldl (fun mp t => (mp.erase t.txid).1) p.mp }

/-- What the entries of a block make of what is known, if the others were not known before. -/
theorem foldl_after_block {known : Set BitcoinTxid} {pre : List CorpusEntry}
    (h : ∀ e ∈ pre, e.type = .KNOWN ∨ e.type = .UNKNOWN ∧ txidFromCorpus e ∉ known)
    (x : BitcoinTxid) :
    x ∈ pre.foldl CorpusEntry.after known ↔ x ∈ known ∧ ∀ e ∈ pre, txidFromCorpus e ≠ x := by
  induction pre generalizing known with
  | nil => simp
  | cons e pre ih =>
    obtain ⟨he, hpre⟩ := List.forall_mem_cons.mp h
    have hafter : e.after known = known \ {txidFromCorpus e} := by
      unfold CorpusEntry.after
      rcases he with htype | ⟨htype, hfresh⟩
      · rw [htype]
      · rw [htype, Set.sdiff_singleton_eq_self hfresh]
    rw [List.foldl_cons, hafter, ih fun e' he' =>
      (hpre e' he').imp_right fun h => ⟨h.1, fun hmem => h.2 hmem.1⟩]
    rw [Set.mem_sdiff, Set.mem_singleton_iff, and_assoc, List.forall_mem_cons, ne_comm]

/-- Without the block, the generator knows what playing its entries would have left. -/
theorem CollectedBlock.Collects.without {known : Set BitcoinTxid} {pre : List CorpusEntry}
    {b : CollectedBlock} (h : b.Collects H A grabFile known pre) :
    (b.peer.without b.block).Holds H A grabFile (pre.foldl CorpusEntry.after known) := by
  obtain ⟨known', hknown, hsame⟩ := h.holds
  have hkeys : ∀ x, x ∈ (b.peer.without b.block).mp.keys ↔
      x ∈ b.peer.mp.keys ∧ ∀ e ∈ pre, txidFromCorpus e ≠ x := by
    intro x
    unfold Peer.without
    rw [UnorderedMap.mem_keys_foldl_erase]
    refine and_congr_right fun _ => ?_
    have htxids := (h.txids x).not
    simp only [not_exists, not_and] at htxids
    rw [List.mem_map, not_exists, ← htxids]
    exact forall_congr' fun t => not_and
  refine ⟨fun e he => hknown.mp e (UnorderedMap.foldl_erase_sub (fun _ h => h) e he),
    hknown.unknown, fun x => ?_⟩
  rw [foldl_after_block h.types, hkeys]
  by_cases hx : ∀ e ∈ pre, txidFromCorpus e ≠ x
  · rw [← hsame x hx, hknown.mem_iff]
    simp only [and_iff_left hx]
    exact Iff.rfl
  · have hkey : x ∈ b.peer.mp.keys := by
      simp only [not_forall, not_not] at hx
      obtain ⟨e, he, heq⟩ := hx
      obtain ⟨t, ht, htxid⟩ := (h.txids x).mpr ⟨e, he, heq⟩
      exact UnorderedMap.mem_keys_iff.mpr ⟨t, htxid ▸ h.sub t ht⟩
    refine iff_of_false (fun h => hx h.2) ?_
    rintro (hin | hin)
    · exact hx hin.2
    · exact hknown.disjoint hkey hin

/-! ## Runs -/

variable (H) (A) (grabFile) in
/-- From `p` to `p'`, the peer has played all that it has read of its corpus. -/
def Replays (p p' : Peer) : Prop :=
  ∀ known, p.Holds H A grabFile known → ∃ entries : List CorpusEntry,
    p.rest = entries ++ p'.rest ∧ p'.Holds H A grabFile (entries.foldl CorpusEntry.after known)

/-- What the generator reads in a round: the entries of its block, the one at which
`generate_block` stops, and those that `next_block` reads. -/
structure RoundEntries where
  block : List CorpusEntry
  stop : CorpusEntry
  next : List CorpusEntry

def RoundEntries.read (r : RoundEntries) : List CorpusEntry := r.block ++ r.stop :: r.next

/-- `next_block` begins by reading the entry behind the one at which `generate_block` stopped. -/
def RoundEntries.played (r : RoundEntries) : List CorpusEntry := r.block ++ r.next

/-- How the types of the entries divide them: `generate_block` stops at the first that is no part
of a block, and `next_block` at the coinbase of the next block. -/
structure RoundEntries.Splits (blocknum : ℕ) (r : RoundEntries) : Prop where
  block : ∀ e ∈ r.block, e.type = .KNOWN ∨ e.type = .UNKNOWN
  stop : r.stop.type ≠ .KNOWN ∧ r.stop.type ≠ .UNKNOWN
  next : ∃ pre e, r.next = pre ++ [e] ∧ e.Reaches (blocknum + 1) ∧
    ∀ e' ∈ pre, ¬ e'.Reaches (blocknum + 1)

variable (H) (A) (grabFile) in
/-- From `p` to `p'`, the generator has played what it has read in rounds from `blocknum` on, but
for the entry in each at which `generate_block` stopped. -/
def ReplaysRounds (blocknum : ℕ) (rounds : ℕ) (p p' : Peer) : Prop :=
  ∀ known, p.Holds H A grabFile known → ∃ rs : List RoundEntries, rs.length = rounds ∧
    (∀ x ∈ rs.zipIdx blocknum, x.1.Splits x.2) ∧
    p.rest = rs.flatMap RoundEntries.read ++ p'.rest ∧
    p'.Holds H A grabFile ((rs.flatMap RoundEntries.played).foldl CorpusEntry.after known)

theorem Replays.refl (p : Peer) : Replays H A grabFile p p := fun _ h => ⟨[], rfl, h⟩

theorem Replays.trans {p p' p'' : Peer} (h : Replays H A grabFile p p')
    (h' : Replays H A grabFile p' p'') : Replays H A grabFile p p'' := by
  intro known hp
  obtain ⟨entries, hrest, hholds⟩ := h known hp
  obtain ⟨entries', hrest', hholds'⟩ := h' _ hholds
  refine ⟨entries ++ entries', ?_, ?_⟩
  · rw [hrest, hrest', List.append_assoc]
  · rw [List.foldl_append]
    exact hholds'

theorem ReplaysRounds.refl (blocknum : ℕ) (p : Peer) : ReplaysRounds H A grabFile blocknum 0 p p :=
  fun _ h => ⟨[], rfl, nofun, rfl, h⟩

theorem ReplaysRounds.trans {blocknum n m : ℕ} {p p' p'' : Peer}
    (h : ReplaysRounds H A grabFile blocknum n p p')
    (h' : ReplaysRounds H A grabFile (blocknum + n) m p' p'') :
    ReplaysRounds H A grabFile blocknum (n + m) p p'' := by
  intro known hp
  obtain ⟨rs, hlen, hsplits, hrest, hholds⟩ := h known hp
  obtain ⟨rs', hlen', hsplits', hrest', hholds'⟩ := h' _ hholds
  refine ⟨rs ++ rs', ?_, ?_, ?_, ?_⟩
  · rw [List.length_append, hlen, hlen']
  · rw [List.zipIdx_append, hlen]
    exact List.forall_mem_append.mpr ⟨hsplits, hsplits'⟩
  · rw [hrest, hrest', List.flatMap_append, List.append_assoc]
  · rw [List.flatMap_append, List.foldl_append]
    exact hholds'

/-- Entries that are played are not the coinbase of a block. -/
theorem Consistent.not_reaches {blocknum : ℕ} {known : Set BitcoinTxid} {l : List CorpusEntry}
    (h : Consistent H A grabFile known l) : ∀ e ∈ l, ¬ e.Reaches blocknum := by
  induction l generalizing known with
  | nil => nofun
  | cons e l ih =>
    exact List.forall_mem_cons.mpr ⟨fun he => he.not_passes h.1, ih h.2⟩

/-- `next_block` plays everything up to the coinbase, and this one. -/
theorem nextBlock_plays {blocknum : ℕ} {p p' : Peer} {known : Set BitcoinTxid}
    (h : p.Holds H A grabFile known) (hrun : nextBlock H A grabFile blocknum p = .ok p') :
    ∃ entries, p.rest = entries ++ p'.rest ∧
      p'.Holds H A grabFile (entries.foldl CorpusEntry.after known) ∧
      ∃ pre e, entries = pre ++ [e] ∧ e.Reaches blocknum ∧ ∀ e' ∈ pre, ¬ e'.Reaches blocknum := by
  obtain ⟨pre, hrest, hpre, hreaches, hholds⟩ := nextEntries_sound h hrun
  have hafter : p'.e.after (pre.foldl CorpusEntry.after known) =
      pre.foldl CorpusEntry.after known := by
    unfold CorpusEntry.after
    rw [hreaches.1]
  refine ⟨pre ++ [p'.e], ?_, ?_, pre, p'.e, rfl, hreaches, hpre.not_reaches⟩
  · rw [hrest, List.append_assoc]
    rfl
  · rw [List.foldl_append, List.foldl_cons, List.foldl_nil, hafter]
    exact hholds

theorem nextBlock_replays {blocknum : ℕ} {p p' : Peer}
    (hrun : nextBlock H A grabFile blocknum p = .ok p') : Replays H A grabFile p p' := by
  intro known h
  obtain ⟨entries, hrest, hholds, -⟩ := nextBlock_plays h hrun
  exact ⟨entries, hrest, hholds⟩

theorem generateBlock_mempool {seed minFeePerByte : U64} {mp : Txmap} {block : UnorderedSet Tx}
    {r : GeneratedBlock} (h : generateBlock H seed minFeePerByte mp block = .ok r) :
    r.mempool = block.toList.foldl (fun mp t => (mp.erase t.txid).1) mp := by
  obtain ⟨pool, -, h⟩ := of_bind_ok h
  obtain ⟨added, -, h⟩ := of_bind_ok h
  obtain ⟨removed, -, h⟩ := of_bind_ok h
  obtain ⟨addedBytes, -, h⟩ := of_bind_ok h
  obtain ⟨removedBytes, -, h⟩ := of_bind_ok h
  cases h
  rfl

/-- The generator leaves out the entry at which it stopped collecting its block. -/
theorem generator_replays {blocknum : ℕ} {p p' : Peer} {b : CollectedBlock}
    (hb : collectBlock H A grabFile blocknum p = .ok b)
    (hrun : nextBlock H A grabFile (blocknum + 1) (b.peer.without b.block) = .ok p') :
    ReplaysRounds H A grabFile blocknum 1 p p' := by
  intro known h
  obtain ⟨pre, hcollects, hend⟩ := collectBlock_collects h hb
  obtain ⟨entries, hrest, hholds, hnext⟩ := nextBlock_plays hcollects.without hrun
  have hrest : b.peer.rest = entries ++ p'.rest := hrest
  rcases hend with ⟨hend, hstop⟩ | ⟨-, hnil⟩
  · have hsplits : (⟨pre, b.peer.e, entries⟩ : RoundEntries).Splits blocknum :=
      ⟨fun e he => (hcollects.types e he).imp_right And.left, hstop, hnext⟩
    refine ⟨[⟨pre, b.peer.e, entries⟩], rfl, ?_, ?_, ?_⟩
    · exact List.forall_mem_singleton.mpr hsplits
    · rw [hend, hrest, List.flatMap_singleton, RoundEntries.read, List.append_assoc]
      rfl
    · rw [List.flatMap_singleton, RoundEntries.played, List.foldl_append]
      exact hholds
  · -- at the end of its corpus there is no next block
    unfold nextBlock at hrun
    rw [show (b.peer.without b.block).rest = [] from hnil] at hrun
    cases hrun

/-- What a round does to the peers. -/
theorem testStep_replays {st st' : TestState} (hstep : TestStep H A grabFile st st') :
    st'.blocknum = st.blocknum + 1 ∧
      ReplaysRounds H A grabFile st.blocknum 1 st.generator st'.generator ∧
      List.Forall₂ (Replays H A grabFile) st.peers st'.peers := by
  obtain ⟨past, junk, row, hrun⟩ := hstep
  obtain ⟨b, hb, hrun⟩ := of_bind_ok hrun
  obtain ⟨r, hr, hrun⟩ := of_bind_ok hrun
  obtain ⟨results, -, hrun⟩ := of_bind_ok hrun
  obtain ⟨generator, hgen, hrun⟩ := of_bind_ok hrun
  obtain ⟨peers, hpeers, hrun⟩ := of_bind_ok hrun
  cases hrun
  rw [generateBlock_mempool (of_filter_ok hr)] at hgen
  exact ⟨rfl, generator_replays hb hgen,
    (forall₂_of_mapM_ok hpeers).imp fun p p' hp => nextBlock_replays hp⟩

/-- **The replay over a whole run.** After some rounds, every other peer knows what the entries make
that it has read. What the generator has read falls into rounds, one for each block, and it knows
what these make without the entry of each round at which `generate_block` stopped. -/
theorem testRuns_replay {st₀ st : TestState}
    (h : Reachable (fun s => s = st₀) (TestStep H A grabFile) st) :
    ∃ rounds, st.blocknum = st₀.blocknum + rounds ∧
      ReplaysRounds H A grabFile st₀.blocknum rounds st₀.generator st.generator ∧
      List.Forall₂ (Replays H A grabFile) st₀.peers st.peers := by
  induction h with
  | start h =>
    subst h
    exact ⟨0, rfl, ReplaysRounds.refl _ _, List.forall₂_same.mpr fun p _ => Replays.refl p⟩
  | next _ hstep ih =>
    obtain ⟨rounds, hnum, hgen, hpeers⟩ := ih
    obtain ⟨hnum', hgen', hpeers'⟩ := testStep_replays hstep
    rw [hnum] at hgen'
    exact ⟨rounds + 1, by omega, hgen.trans hgen',
      forall₂_comp hpeers hpeers' fun p _ p' h p'' h' => h.trans h'⟩

/-- All mempools were read from the files. -/
structure TestState.Reads (H : Hashes) (A : Allocator) (grabFile : List Char → Option (List U8))
    (st : TestState) : Prop where
  generator : st.generator.Reads H A grabFile
  peers : ∀ p ∈ st.peers, p.Reads H A grabFile

theorem startTest_reads {blocknum : ℕ} {seed : U64} {corpora : List (String × List CorpusEntry)}
    {st : TestState} (h : startTest H A grabFile blocknum seed corpora = .ok st) :
    st.Reads H A grabFile := by
  obtain ⟨peers, hpeers, h⟩ := of_bind_ok h
  have hall : ∀ p ∈ peers, p.Reads H A grabFile := by
    refine forall_of_mapM_ok (fun c _ p hp => ?_) hpeers
    obtain ⟨p₀, hopen, hp⟩ := of_bind_ok hp
    refine forwardToBlock_reads ?_ hp
    unfold openPeer at hopen
    split at hopen
    · cases hopen
    · cases hopen
      exact (Peer.holds_empty _ _ _).reads
  cases peers with
  | nil => cases h
  | cons generator peers =>
    cases h
    obtain ⟨hgen, hrest⟩ := List.forall_mem_cons.mp hall
    exact ⟨hgen, hrest⟩

theorem Replays.reads {p p' : Peer} (h : Replays H A grabFile p p')
    (hp : p.Reads H A grabFile) : p'.Reads H A grabFile := by
  obtain ⟨known, hknown⟩ := hp
  obtain ⟨entries, -, hholds⟩ := h known hknown
  exact hholds.reads

theorem ReplaysRounds.reads {blocknum rounds : ℕ} {p p' : Peer}
    (h : ReplaysRounds H A grabFile blocknum rounds p p') (hp : p.Reads H A grabFile) :
    p'.Reads H A grabFile := by
  obtain ⟨known, hknown⟩ := hp
  obtain ⟨rs, -, -, -, hholds⟩ := h known hknown
  exact hholds.reads

theorem testStep_reads {st st' : TestState} (h : st.Reads H A grabFile)
    (hstep : TestStep H A grabFile st st') : st'.Reads H A grabFile := by
  obtain ⟨-, hgen, hpeers⟩ := testStep_replays hstep
  refine ⟨hgen.reads h.generator, fun p' hp' => ?_⟩
  obtain ⟨p, hp, hreplays⟩ := forall₂_of_mem_right hpeers hp'
  exact hreplays.reads (h.peers p hp)

/-- In every state between the rounds, all mempools were read from the files. -/
theorem TestReachable.reads {blocknum : ℕ} {seed : U64}
    {corpora : List (String × List CorpusEntry)} {st : TestState}
    (h : TestReachable H A grabFile blocknum seed corpora st) : st.Reads H A grabFile :=
  Reachable.invariant (TestState.Reads H A grabFile) (fun _ => startTest_reads)
    (fun _ _ => testStep_reads) h

/-! ## A round -/

variable (H) (A) (grabFile) in
/-- No transaction in the files needs more slices than can be counted in 16 bits. -/
def FilesShort : Prop :=
  ∀ x t, getTx H A grabFile x false = .ok (some t) → ∃ n, n ≤ 0xffff ∧ numSlices t.btx = .ok n

/-- What was read meets the assumptions of the protocol. -/
theorem Peer.Reads.mempool {p : Peer} (h : p.Reads H A grabFile) :
    p.mp.Keyed ∧ p.mp.Hashed H ∧
      (FilesShort H A grabFile → ∀ e ∈ p.mp.entries, Sliceable e.2.btx ∧
        ∀ seed, (txSlices H seed e).length ≤ 0xffff) := by
  obtain ⟨known, h⟩ := h
  refine ⟨fun e he => (of_getTx (h.mp e he)).1, fun e he => ?_, fun hshort e he => ?_⟩
  · obtain ⟨htxid, hhash, -⟩ := of_getTx (h.mp e he)
    rw [hhash, htxid]
  · obtain ⟨n, hn, hslices⟩ := hshort e.1 e.2 (h.mp e he)
    refine ⟨sliceable_iff.mpr ⟨n, hslices⟩, fun seed => ?_⟩
    rw [txSlices, slicesOf_length _ hslices]
    exact hn

/-- A block that was collected, for a peer with distinct ids. -/
theorem CollectedBlock.Collects.exchange {known : Set BitcoinTxid} {pre : List CorpusEntry}
    {b : CollectedBlock} (h : b.Collects H A grabFile known pre) (hshort : FilesShort H A grabFile)
    {seed : U64} (hseed : seed ≠ 0) (hids : b.peer.mp.DistinctIds H seed) {p : Peer}
    (hp : p.Reads H A grabFile) (hids' : p.mp.DistinctIds H seed) :
    Exchange H seed b.peer.mp p.mp b.block := by
  obtain ⟨hkeyed, hhashed, hall⟩ := h.reads.mempool
  obtain ⟨hkeyed', hhashed', hall'⟩ := hp.mempool
  exact ⟨hseed, h.sub, hids, hids', hkeyed, hkeyed', hhashed, hhashed',
    fun e he => (hall hshort e he).1, fun e he => (hall' hshort e he).1,
    fun t ht => (hall hshort (t.txid, t) (h.sub t ht)).2 seed⟩

/-- The parts of a round, where each of them comes to its end. -/
theorem testRound_ok {past : ℕ → ℕ → U8} {junk : ℕ → ℕ → BucketType → Bool} {st : TestState}
    {b : CollectedBlock} {r : GeneratedBlock} {results : List MinDecoded} {generator : Peer}
    {peers : List Peer} (hb : collectBlock H A grabFile st.blocknum st.generator = .ok b)
    (hgen : generateBlock H (st.seed + 1) assumedMinFee b.peer.mp b.block = .ok r)
    (hresults : searchAll H A past junk (st.seed + 1) b r st.peers = .ok results)
    (hgenerator : nextBlock H A grabFile (st.blocknum + 1) (b.peer.without b.block) = .ok generator)
    (hpeers : st.peers.mapM (nextBlock H A grabFile (st.blocknum + 1)) = .ok peers) :
    testRound H A grabFile past junk st = .ok
      (⟨st.blocknum, b.blocksize, b.known, b.unknown, mempoolLength b.peer.mp, r.addedLength,
        r.removedLength, results⟩, ⟨st.blocknum + 1, st.seed + 1, generator, peers⟩) := by
  unfold Peer.without at hgenerator
  rw [← generateBlock_mempool hgen] at hgenerator
  have hgen' := congrArg Filter.of hgen
  unfold testRound
  dsimp only
  rw [hb]
  show (Filter.of (generateBlock H (st.seed + 1) assumedMinFee b.peer.mp b.block) >>= _) = _
  rw [hgen']
  show (searchAll H A past junk (st.seed + 1) b r st.peers >>= _) = _
  rw [hresults]
  show (nextBlock H A grabFile (st.blocknum + 1) { b.peer with mp := r.mempool } >>= _) = _
  rw [hgenerator]
  show (st.peers.mapM (nextBlock H A grabFile (st.blocknum + 1)) >>= _) = _
  rw [hpeers]
  rfl

/-- A round, from mempools that were read. -/
theorem TestState.Reads.round (hA : A.Succeeds) (hshort : FilesShort H A grabFile)
    {st : TestState} (hreads : st.Reads H A grabFile) {b : CollectedBlock}
    (hb : collectBlock H A grabFile st.blocknum st.generator = .ok b) (hseed : st.seed + 1 ≠ 0)
    (hids : ∀ p ∈ b.peer :: st.peers, p.mp.DistinctIds H (st.seed + 1))
    (hnext : ∀ p ∈ b.peer.without b.block :: st.peers,
      ∃ p', nextBlock H A grabFile (st.blocknum + 1) p = .ok p')
    (past : ℕ → ℕ → U8) (junk : ℕ → ℕ → BucketType → Bool) :
    ∃ r row st', generateBlock H (st.seed + 1) assumedMinFee b.peer.mp b.block = .ok r ∧
      testRound H A grabFile past junk st = .ok (row, st') ∧
      List.Forall₂ (fun pi res => Border H A (DecodeTask.ofBlock (past pi.2) (junk pi.2) b.block
        assumedMinFee b.cb.btx pi.1.mp (st.seed + 1) r) res) st.peers.zipIdx row.results := by
  obtain ⟨known, hknown⟩ := hreads.generator
  obtain ⟨pre, hcollects, -⟩ := collectBlock_collects hknown hb
  obtain ⟨hidsGen, hids⟩ := List.forall_mem_cons.mp hids
  obtain ⟨⟨generator, hgenerator⟩, hnext⟩ := List.forall_mem_cons.mp hnext
  obtain ⟨hkeyed, -, -⟩ := hcollects.reads.mempool
  obtain ⟨-, r, -, hgen, -, -⟩ :=
    generateBlock_ok hseed assumedMinFee b.block hidsGen hkeyed hcollects.sub
  have hsearch : ∀ pi ∈ st.peers.zipIdx, ∃ res, Filter.of (minDecode H A
      (DecodeTask.ofBlock (past pi.2) (junk pi.2) b.block assumedMinFee b.cb.btx pi.1.mp
        (st.seed + 1) r)) = .ok res ∧ Border H A (DecodeTask.ofBlock (past pi.2) (junk pi.2) b.block
        assumedMinFee b.cb.btx pi.1.mp (st.seed + 1) r) res := by
    intro pi hpi
    have hp : pi.1 ∈ st.peers := List.fst_mem_of_mem_zipIdx hpi
    obtain ⟨-, res, -, hrun, hborder, -⟩ := (hcollects.exchange hshort hseed hidsGen
      (hreads.peers pi.1 hp) (hids pi.1 hp)).search hA (past pi.2) (junk pi.2) b.cb.btx hgen
    exact ⟨res, by rw [hrun]; rfl, hborder⟩
  obtain ⟨results, hresults, hborders⟩ := mapM_ok hsearch
  obtain ⟨peers, hpeers, -⟩ := mapM_ok (R := fun _ _ => True) fun p hp =>
    (hnext p hp).imp fun p' hp' => ⟨hp', trivial⟩
  exact ⟨r, _, _, hgen, testRound_ok hb hgen hresults hgenerator hpeers, hborders⟩

/-- **A round.** In any state that the driver reaches, if a block can be collected, the short ids
under the seed of the round are distinct in each mempool, and the corpora go on to the next block,
then the round ends, and for every other peer it reports what is at a border. -/
theorem testRound_exact (H : Hashes) {A : Allocator} (hA : A.Succeeds)
    {grabFile : List Char → Option (List U8)} (hshort : FilesShort H A grabFile) {blocknum : ℕ}
    {seed : U64} {corpora : List (String × List CorpusEntry)} {st : TestState}
    (hst : TestReachable H A grabFile blocknum seed corpora st) {b : CollectedBlock}
    (hb : collectBlock H A grabFile st.blocknum st.generator = .ok b) (hseed : st.seed + 1 ≠ 0)
    (hids : ∀ p ∈ b.peer :: st.peers, p.mp.DistinctIds H (st.seed + 1))
    (hnext : ∀ p ∈ b.peer.without b.block :: st.peers,
      ∃ p', nextBlock H A grabFile (st.blocknum + 1) p = .ok p')
    (past : ℕ → ℕ → U8) (junk : ℕ → ℕ → BucketType → Bool) :
    ∃ r row st', generateBlock H (st.seed + 1) assumedMinFee b.peer.mp b.block = .ok r ∧
      testRound H A grabFile past junk st = .ok (row, st') ∧
      List.Forall₂ (fun pi res => Border H A (DecodeTask.ofBlock (past pi.2) (junk pi.2) b.block
        assumedMinFee b.cb.btx pi.1.mp (st.seed + 1) r) res) st.peers.zipIdx row.results :=
  hst.reads.round hA hshort hb hseed hids hnext past junk

/-- A block with one transaction, for a peer that has nothing. The entry behind it is a transaction
that comes in. -/
def blankState : TestState :=
  ⟨1, 0, ⟨"generator", UnorderedMap.empty, UnorderedSet.empty, blankEntry .COINBASE 1,
      [blankEntry .UNKNOWN 0, blankEntry .INCOMING_TX 0, blankEntry .COINBASE 2]⟩,
    [⟨"peer", UnorderedMap.empty, UnorderedSet.empty, blankEntry .COINBASE 1,
      [blankEntry .COINBASE 2]⟩]⟩

theorem forwardToBlock_blank (file : String) (rest : List CorpusEntry) :
    forwardToBlock spreadHashes (fun _ _ => true) blankFile 1 ⟨file, UnorderedMap.empty,
      UnorderedSet.empty, blankEntry .COINBASE 0, blankEntry .COINBASE 1 :: rest⟩ =
      .ok ⟨file, UnorderedMap.empty, UnorderedSet.empty, blankEntry .COINBASE 1, rest⟩ := by
  rw [forwardToBlock, dif_neg (by decide), forwardEntries, forwardTurn]
  simp only [txidFromCorpus_blank, orphaned_zero]
  rfl

theorem startPeer_blank (file : String) (rest : List CorpusEntry) :
    startPeer spreadHashes (fun _ _ => true) blankFile 1
      (file, blankEntry .COINBASE 0 :: blankEntry .COINBASE 1 :: rest) =
      .ok ⟨file, UnorderedMap.empty, UnorderedSet.empty, blankEntry .COINBASE 1, rest⟩ :=
  forwardToBlock_blank file rest

theorem blankState_reachable : TestReachable spreadHashes (fun _ _ => true) blankFile 1 0
    [("generator", [blankEntry .COINBASE 0, blankEntry .COINBASE 1, blankEntry .UNKNOWN 0,
      blankEntry .INCOMING_TX 0, blankEntry .COINBASE 2]),
    ("peer", [blankEntry .COINBASE 0, blankEntry .COINBASE 1, blankEntry .COINBASE 2])]
    blankState := by
  refine Reachable.start ?_
  unfold startTest
  simp only [List.mapM_cons, List.mapM_nil, startPeer_blank]
  rfl

/-- The transaction of `oneTx`, as a block. -/
def oneTxBlock : UnorderedSet Tx := UnorderedSet.empty.insert ⟨0, zeroBytes 32, BitcoinTx.blank⟩

/-- The block that is generated. -/
def blankCollected : CollectedBlock :=
  ⟨⟨0, zeroBytes 32, BitcoinTx.blank⟩, oneTxBlock,
    BitcoinTx.blank.length + BitcoinTx.blank.length, 0, 0 + BitcoinTx.blank.length,
    ⟨"generator", oneTx, UnorderedSet.empty, blankEntry .INCOMING_TX 0,
      [blankEntry .COINBASE 2]⟩⟩

theorem collectBlock_blank : collectBlock spreadHashes (fun _ _ => true) blankFile 1
    blankState.generator = .ok blankCollected := by
  unfold collectBlock
  rw [if_neg (by decide)]
  simp only [blankState, txidFromCorpus_blank, getTx_blank, ok_bind]
  rw [collectEntries, collectTurn]
  simp only [txidFromCorpus_blank, getTx_blank]
  rfl

theorem blankFile_short : FilesShort spreadHashes (fun _ _ => true) blankFile := by
  intro x t h
  rw [getTx_blankFile] at h
  split_ifs at h
  cases h
  exact ⟨1, by decide, numSlices_blank⟩

theorem nextBlock_blank (file : String) (mp : Txmap) (unknown : UnorderedSet BitcoinTxid)
    (e : CorpusEntry) (rest : List CorpusEntry) :
    nextBlock spreadHashes (fun _ _ => true) blankFile 2
      ⟨file, mp, unknown, e, blankEntry .COINBASE 2 :: rest⟩ =
      .ok ⟨file, mp, unknown, blankEntry .COINBASE 2, rest⟩ := by
  unfold nextBlock
  rw [nextEntries, nextTurn]
  simp only [txidFromCorpus_blank, orphaned_zero]
  rfl

theorem distinctIds_blank : ∀ p ∈ blankCollected.peer :: blankState.peers,
    p.mp.DistinctIds spreadHashes (blankState.seed + 1) := by
  refine List.forall_mem_cons.mpr ⟨?_, List.forall_mem_singleton.mpr ?_⟩
  · exact List.nodup_singleton _
  · exact List.nodup_nil

theorem next_blank : ∀ p ∈ blankCollected.peer.without blankCollected.block :: blankState.peers,
    ∃ p', nextBlock spreadHashes (fun _ _ => true) blankFile (blankState.blocknum + 1) p =
      .ok p' := by
  refine List.forall_mem_cons.mpr ⟨?_, List.forall_mem_singleton.mpr ?_⟩
  · exact ⟨_, nextBlock_blank _ _ _ _ _⟩
  · exact ⟨_, nextBlock_blank _ _ _ _ _⟩

/-- The round of `blankState` ends, with a result for the one peer. -/
theorem testRound_exact_blank : ∃ row st',
    testRound spreadHashes (fun _ _ => true) blankFile (fun _ _ => 0xFF) (fun _ _ _ => true)
      blankState = .ok (row, st') ∧ row.results.length = 1 := by
  obtain ⟨r, row, st', -, hrun, hresults⟩ := testRound_exact spreadHashes (A := fun _ _ => true)
    (fun _ _ => rfl) blankFile_short blankState_reachable collectBlock_blank (by decide)
    distinctIds_blank next_blank (fun _ _ => 0xFF) fun _ _ _ => true
  exact ⟨row, st', hrun, hresults.length_eq.symm⟩

/-- Its rounds from there are one, and this is how its entries fall. -/
theorem blankState_round {r : RoundEntries} (h : r.Splits 1) {rest : List CorpusEntry}
    (hrest : blankState.generator.rest = r.read ++ rest) :
    r = ⟨[blankEntry .UNKNOWN 0], blankEntry .INCOMING_TX 0, [blankEntry .COINBASE 2]⟩ := by
  obtain ⟨block, stop, next⟩ := r
  obtain ⟨hblock, hstop, pre, e, rfl, -, -⟩ := h
  have hrest : [blankEntry .UNKNOWN 0, blankEntry .INCOMING_TX 0, blankEntry .COINBASE 2] =
      block ++ stop :: (pre ++ [e]) ++ rest := hrest
  rcases block with _ | ⟨x, _ | ⟨y, block⟩⟩
  · obtain ⟨rfl, -⟩ := List.cons_eq_cons.mp hrest
    exact absurd rfl hstop.2
  · obtain ⟨rfl, htail⟩ := List.cons_eq_cons.mp hrest
    obtain ⟨rfl, htail'⟩ := List.cons_eq_cons.mp htail
    cases pre with
    | nil =>
      obtain ⟨rfl, -⟩ := List.cons_eq_cons.mp htail'
      rfl
    | cons y pre => simp at htail'
  · obtain ⟨rfl, htail⟩ := List.cons_eq_cons.mp hrest
    obtain ⟨rfl, -⟩ := List.cons_eq_cons.mp htail
    exact absurd (hblock _ (List.mem_cons_of_mem _ List.mem_cons_self)) (by decide)

/-- After that round, the generator does not have the transaction that came in. -/
theorem testRuns_replay_blank : ∃ st,
    TestStep spreadHashes (fun _ _ => true) blankFile blankState st ∧
      st.generator.Holds spreadHashes (fun _ _ => true) blankFile ∅ := by
  obtain ⟨r, row, st, -, hrun, -⟩ := blankState_reachable.reads.round (fun _ _ => rfl)
    blankFile_short collectBlock_blank (by decide) distinctIds_blank next_blank
    (fun _ _ => 0xFF) fun _ _ _ => true
  have hstep : TestStep spreadHashes (fun _ _ => true) blankFile blankState st :=
    ⟨_, _, row, hrun⟩
  obtain ⟨rounds, hnum, hgen, -⟩ := testRuns_replay (Reachable.next (.start rfl) hstep)
  have hone := (testStep_replays hstep).1
  obtain rfl : rounds = 1 := by omega
  obtain ⟨rs, hlen, hsplits, hrest, hholds⟩ := hgen ∅ (Peer.holds_empty _ _ _)
  obtain ⟨r', rfl⟩ := List.length_eq_one_iff.mp hlen
  have hsplit : r'.Splits 1 := hsplits (r', 1) List.mem_cons_self
  rw [List.flatMap_singleton] at hrest hholds
  rw [blankState_round hsplit hrest] at hholds
  exact ⟨st, hstep, hholds⟩

end BitcoinIblt
