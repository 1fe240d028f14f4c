import BitcoinIblt.CandidateSet
import BitcoinIblt.Filters
import BitcoinIblt.MixedDifference

/-!
# The corpus of a peer

`iblt-test` replays for each peer a recorded sequence of entries: transactions coming in, and what
of each block the peer knew. The transactions themselves are in files, by txid, and some are
missing.

What a peer has at any time is a set of txids that the entries alone determine: those that came in
and were not in a block. It is divided between the mempool, which holds those whose file could be
read, and `unknown`, which holds the rest (`Peer.Holds`). `next_block` keeps that, and it returns
exactly if the entries up to the next block are consistent with the set (`nextBlock_exact`).
-/

namespace BitcoinIblt

open LittleEndian

variable (H : Hashes) (A : Allocator)

/-! ## The transactions -/

/-- The name of the file for a txid; the buffer for it is long enough (`hexEncode_txid`). -/
def txFilename (txid : BitcoinTxid) : List Char := "txcache/".toList ++ hexText txid.1

theorem hexEncode_txid (txid : BitcoinTxid) : hexEncode txid.1 69 = some (hexText txid.1) :=
  hexEncode_eq (by rw [txid.2]; decide)

/-- `get_tx`: the files are a parameter, as `grab_file` reads them. -/
def getTx (grabFile : List Char → Option (List U8)) (txid : BitcoinTxid) (mustExist : Bool) :
    Filter (Option Tx) :=
  match grabFile (txFilename txid) with
  | none =>
    if mustExist then throw (.errx ("Could not find tx " ++ String.ofList (hexText txid.1)))
    else return none
  | some txbytes =>
    if txbytes.length < 8 then
      throw (.errx ("Truncated " ++ String.ofList (txFilename txid)))
    else do
      let (btx, _) ← Filter.of (BitcoinTx.parse A (some (txbytes.drop 8)))
      let t := Tx.new H (BitVec.ofNat 64 (ofLE (txbytes.take 8))) btx
      if t.txid = txid then return some t else throw (.fault .assertion)

/-! ## The entries -/

/-- `corpus_entry_type` -/
inductive CorpusEntryType
  | COINBASE
  | INCOMING_TX
  | KNOWN
  | MEMPOOL_ONLY
  | UNKNOWN
  deriving DecidableEq

/-- What is read of a `struct corpus_entry`. -/
structure CorpusEntry where
  type : CorpusEntryType
  blocknum : ℕ
  id : Bytes 32

/-- "Corpus txids are backwards :(" -/
def txidFromCorpus (e : CorpusEntry) : BitcoinTxid :=
  ⟨e.id.1.reverse, by rw [List.length_reverse, e.id.2]⟩

/-- "This is the 352802 orphan" -/
def orphanHex : List Char :=
  "79b1c309ab8ab92bca4d07508e0f596f872f66c6db4d3667133a37172055e97b".toList

/-- "We identify orphaned blocks by coinbase." -/
def orphaned (txid : BitcoinTxid) : Run Bool := do
  let orphan ← BitcoinTxid.ofHex orphanHex
  return txid = orphan

def maybeOrphan (blocknum : ℕ) : Bool := blocknum = 352802

structure Peer where
  file : String
  mp : Txmap
  unknown : UnorderedSet BitcoinTxid
  /-- the entry that was read last -/
  e : CorpusEntry
  /-- what is left of the file -/
  rest : List CorpusEntry

/-- `mempool::add` -/
def Peer.add (p : Peer) (t : Tx) : Peer := { p with mp := (p.mp.insert t.txid t).1 }

variable (grabFile : List Char → Option (List U8))

/-- "Add this to the mempool; ignore a few unknowns." -/
def Peer.addIncoming (p : Peer) : Filter Peer := do
  match ← getTx H A grabFile (txidFromCorpus p.e) false with
  | some t => return p.add t
  | none => return { p with unknown := p.unknown.insert (txidFromCorpus p.e) }

/-- A turn of `next_block` on the entry that was read: `none` when the block is there. -/
def nextTurn (blocknum : ℕ) (p : Peer) : Filter (Option Peer) := do
  let txid := txidFromCorpus p.e
  match p.e.type with
  | .COINBASE =>
    -- "If it's orphaned, ignore it."
    if ← Filter.of (orphaned txid) then return some p
    -- "If this fails, we hit an orphan!"
    else if p.e.blocknum = blocknum then return none
    else throw (.fault .assertion)
  | .INCOMING_TX =>
    let p ← p.addIncoming H A grabFile
    return some p
  | .KNOWN =>
    -- "It was in block, so remove from mempool."
    let (mp, erased) := p.mp.erase txid
    if erased then return some { p with mp }
    else if txid ∈ p.unknown then return some { p with unknown := p.unknown.erase txid }
    else throw (.errx ("Peer " ++ p.file ++ " has bad txid in block?"))
  | .MEMPOOL_ONLY =>
    if (p.mp.find txid).isSome ∨ txid ∈ p.unknown then return some p
    else throw (.fault .assertion)
  | .UNKNOWN =>
    if (p.mp.find txid).isNone then return some p else throw (.fault .assertion)

/-- The loop over the entries that are left. -/
def nextEntries (blocknum : ℕ) (p : Peer) : List CorpusEntry → Filter Peer
  | [] => throw (.errx ("No block " ++ toString blocknum ++ " for peer " ++ p.file))
  | e :: rest => do
    let p := { p with e, rest }
    match ← nextTurn H A grabFile blocknum p with
    | none => return p
    | some p => nextEntries blocknum p rest

/-- "Keep going until next coinbase" -/
def nextBlock (blocknum : ℕ) (p : Peer) : Filter Peer := nextEntries H A grabFile blocknum p p.rest

/-- What `forward_to_block` does with a transaction behind the block before. -/
def forwardTx (p : Peer) : Filter Peer := do
  let txid := txidFromCorpus p.e
  match ← getTx H A grabFile txid false with
  | some t =>
    let p := p.add t
    if (p.mp.find txid).isSome then return p else throw (.fault .assertion)
  | none => return { p with unknown := p.unknown.insert txid }

/-- A turn of `forward_to_block`: whether the block before was seen, and `none` when the block is
there. -/
def forwardTurn (blocknum : ℕ) (prevBlock : Bool) (p : Peer) : Filter (Option (Bool × Peer)) := do
  let txid := txidFromCorpus p.e
  match p.e.type with
  | .COINBASE =>
    if ← Filter.of (orphaned txid) then return some (prevBlock, p)
    else if p.e.blocknum = blocknum then
      if prevBlock then return none else throw (.fault .assertion)
    else if prevBlock then throw (.fault .assertion)
    else return some (p.e.blocknum = blocknum - 1, p)
  | .INCOMING_TX | .MEMPOOL_ONLY =>
    if prevBlock then
      let p ← forwardTx H A grabFile p
      return some (prevBlock, p)
    else return some (prevBlock, p)
  | .KNOWN | .UNKNOWN => return some (prevBlock, p)

def forwardEntries (blocknum : ℕ) (prevBlock : Bool) (p : Peer) : List CorpusEntry → Filter Peer
  | [] => throw (.errx ("No block number " ++ toString blocknum ++ " for peer " ++ p.file))
  | e :: rest => do
    let p := { p with e, rest }
    match ← forwardTurn H A grabFile blocknum prevBlock p with
    | none => return p
    | some (prevBlock, p) => forwardEntries blocknum prevBlock p rest

/-- "We sync the mempool at the block before." -/
def forwardToBlock (blocknum : ℕ) (p : Peer) : Filter Peer :=
  -- "Corner case: previous blocknum is orphan.  Re-use next_block logic()."
  if _h : maybeOrphan (blocknum - 1) then do
    let p ← forwardToBlock (blocknum - 2) p
    let p ← nextBlock H A grabFile (blocknum - 1) p
    nextBlock H A grabFile blocknum p
  else forwardEntries H A grabFile blocknum false p (p.e :: p.rest)
termination_by blocknum
decreasing_by
  have := of_decide_eq_true _h
  omega

/-! ## What a peer has -/

/-- The peer has the txids of `known`: those that can be read are in its mempool, the others in
`unknown`. -/
structure Peer.Holds (p : Peer) (known : Set BitcoinTxid) : Prop where
  mp : ∀ e ∈ p.mp.entries, getTx H A grabFile e.1 false = .ok (some e.2)
  unknown : ∀ x ∈ p.unknown, getTx H A grabFile x false = .ok none
  mem_iff : ∀ x, x ∈ known ↔ x ∈ p.mp.keys ∨ x ∈ p.unknown

/-- What is known after an entry. -/
def CorpusEntry.after (known : Set BitcoinTxid) (e : CorpusEntry) : Set BitcoinTxid :=
  match e.type with
  | .INCOMING_TX => insert (txidFromCorpus e) known
  | .KNOWN => known \ {txidFromCorpus e}
  | _ => known

/-- The entry goes with what is known, and is not the coinbase of a block. -/
def CorpusEntry.Passes (known : Set BitcoinTxid) (e : CorpusEntry) : Prop :=
  match e.type with
  | .COINBASE => orphaned (txidFromCorpus e) = .ok true
  | .INCOMING_TX => ∃ r, getTx H A grabFile (txidFromCorpus e) false = .ok r
  | .KNOWN => txidFromCorpus e ∈ known
  | .MEMPOOL_ONLY => txidFromCorpus e ∈ known
  | .UNKNOWN => txidFromCorpus e ∈ known → getTx H A grabFile (txidFromCorpus e) false = .ok none

/-- All of the entries do. -/
def Consistent (known : Set BitcoinTxid) : List CorpusEntry → Prop
  | [] => True
  | e :: l => e.Passes H A grabFile known ∧ Consistent (e.after known) l

/-- The coinbase of the block. -/
def CorpusEntry.Reaches (blocknum : ℕ) (e : CorpusEntry) : Prop :=
  e.type = .COINBASE ∧ orphaned (txidFromCorpus e) = .ok false ∧ e.blocknum = blocknum

variable {H} {A} {grabFile}

/-- A transaction that was read has the txid that was asked for. -/
theorem of_getTx {txid : BitcoinTxid} {mustExist : Bool} {t : Tx}
    (h : getTx H A grabFile txid mustExist = .ok (some t)) :
    t.txid = txid ∧ t.btx.txid H = t.txid ∧ getTx H A grabFile txid false = .ok (some t) := by
  unfold getTx at h ⊢
  cases hfile : grabFile (txFilename txid) with
  | none =>
    simp only [hfile] at h
    split_ifs at h
    all_goals cases h
  | some txbytes =>
    simp only [hfile] at h ⊢
    split_ifs at h ⊢ with hlen
    refine ⟨?_, ?_, h⟩
    all_goals
      obtain ⟨r, -, h⟩ := of_bind_ok h
      split_ifs at h with htxid
    · cases h
      exact htxid
    · cases h
      rfl

theorem orphaned_returns (txid : BitcoinTxid) : ∃ b, orphaned txid = .ok b := ⟨_, rfl⟩

/-- A peer that has nothing. -/
theorem Peer.holds_empty (file : String) (e : CorpusEntry) (rest : List CorpusEntry) :
    (⟨file, UnorderedMap.empty, UnorderedSet.empty, e, rest⟩ : Peer).Holds H A grabFile ∅ :=
  ⟨fun e he => absurd he List.not_mem_nil, fun x hx => absurd hx List.not_mem_nil,
    fun x => iff_of_false (Set.notMem_empty x) (by rintro (hx | hx) <;> cases hx)⟩

/-! ## What a turn does -/

section Turn

variable {p : Peer} {known : Set BitcoinTxid} (h : p.Holds H A grabFile known)

include h

theorem Peer.Holds.move (e : CorpusEntry) (rest : List CorpusEntry) :
    { p with e, rest }.Holds H A grabFile known :=
  ⟨h.mp, h.unknown, h.mem_iff⟩

theorem Peer.Holds.read {x : BitcoinTxid} (hx : x ∈ p.mp.keys) :
    ∃ t, getTx H A grabFile x false = .ok (some t) := by
  obtain ⟨t, ht⟩ := UnorderedMap.mem_keys_iff.mp hx
  exact ⟨t, h.mp _ ht⟩

/-- What can be read is not in `unknown`. -/
theorem Peer.Holds.disjoint {x : BitcoinTxid} (hx : x ∈ p.mp.keys) : x ∉ p.unknown := by
  obtain ⟨t, ht⟩ := h.read hx
  exact fun hu => nomatch ht.symm.trans (h.unknown x hu)

theorem Peer.Holds.add {x : BitcoinTxid} {t : Tx}
    (ht : getTx H A grabFile x false = .ok (some t)) :
    (p.add t).Holds H A grabFile (insert x known) := by
  obtain ⟨rfl, -, -⟩ := of_getTx ht
  refine ⟨fun e he => ?_, h.unknown, fun x => ?_⟩
  · rcases UnorderedMap.mem_insert.mp he with he | ⟨rfl, -⟩
    · exact h.mp e he
    · exact ht
  · rw [Set.mem_insert_iff, h.mem_iff, Peer.add, UnorderedMap.mem_keys_insert, or_assoc]

theorem Peer.Holds.addUnknown {x : BitcoinTxid} (hx : getTx H A grabFile x false = .ok none) :
    { p with unknown := p.unknown.insert x }.Holds H A grabFile (insert x known) := by
  refine ⟨h.mp, fun y hy => ?_, fun y => ?_⟩
  · rcases UnorderedSet.mem_insert.mp hy with rfl | hy
    · exact hx
    · exact h.unknown y hy
  · rw [Set.mem_insert_iff, h.mem_iff, UnorderedSet.mem_insert]
    exact or_left_comm

theorem Peer.Holds.addIncoming {r : Option Tx}
    (hr : getTx H A grabFile (txidFromCorpus p.e) false = .ok r) :
    ∃ p', p.addIncoming H A grabFile = .ok p' ∧
      p'.Holds H A grabFile (insert (txidFromCorpus p.e) known) := by
  unfold Peer.addIncoming
  rw [hr]
  cases r with
  | some t => exact ⟨_, rfl, h.add hr⟩
  | none => exact ⟨_, rfl, h.addUnknown hr⟩

theorem Peer.Holds.del {x : BitcoinTxid} (hx : x ∈ p.mp.keys) :
    { p with mp := (p.mp.erase x).1 }.Holds H A grabFile (known \ {x}) := by
  refine ⟨fun e he => h.mp e (UnorderedMap.mem_erase.mp he).1, h.unknown, fun y => ?_⟩
  rw [Set.mem_sdiff, Set.mem_singleton_iff, h.mem_iff, UnorderedMap.mem_keys_erase]
  constructor
  · rintro ⟨hy | hy, hne⟩
    · exact Or.inl ⟨hy, hne⟩
    · exact Or.inr hy
  · rintro (⟨hy, hne⟩ | hy)
    · exact ⟨Or.inl hy, hne⟩
    · exact ⟨Or.inr hy, fun heq => h.disjoint hx (heq ▸ hy)⟩

theorem Peer.Holds.delUnknown {x : BitcoinTxid} (hx : x ∉ p.mp.keys) :
    { p with unknown := p.unknown.erase x }.Holds H A grabFile (known \ {x}) := by
  refine ⟨h.mp, fun y hy => h.unknown y (UnorderedSet.mem_erase.mp hy).1, fun y => ?_⟩
  rw [Set.mem_sdiff, Set.mem_singleton_iff, h.mem_iff, UnorderedSet.mem_erase]
  constructor
  · rintro ⟨hy | hy, hne⟩
    · exact Or.inl hy
    · exact Or.inr ⟨hy, hne⟩
  · rintro (hy | ⟨hy, hne⟩)
    · exact ⟨Or.inl hy, fun heq => hx (heq ▸ hy)⟩
    · exact ⟨Or.inr hy, hne⟩

/-- A transaction of the block leaves the mempool or `unknown`, if it was there. -/
theorem Peer.Holds.known_mem {x : BitcoinTxid} (hx : x ∉ p.mp.keys) :
    x ∈ p.unknown ↔ x ∈ known := by
  rw [h.mem_iff]
  exact (or_iff_right hx).symm

/-- **One turn.** An entry that passes is played; the coinbase of the block ends the loop; on any
other entry the program stops. -/
theorem Peer.Holds.turn (blocknum : ℕ) :
    (p.e.Passes H A grabFile known ∧ ∃ p', nextTurn H A grabFile blocknum p = .ok (some p') ∧
      p'.Holds H A grabFile (p.e.after known)) ∨
    (p.e.Reaches blocknum ∧ nextTurn H A grabFile blocknum p = .ok none) ∨
    ¬ p.e.Passes H A grabFile known ∧ ¬ p.e.Reaches blocknum ∧
      ∃ stop, nextTurn H A grabFile blocknum p = .error stop := by
  unfold CorpusEntry.Passes CorpusEntry.Reaches CorpusEntry.after nextTurn
  cases htype : p.e.type with
  | COINBASE =>
    obtain ⟨b, hb⟩ := orphaned_returns (txidFromCorpus p.e)
    dsimp only
    rw [hb]
    cases b with
    | true => exact Or.inl ⟨rfl, p, rfl, h⟩
    | false =>
      by_cases hnum : p.e.blocknum = blocknum
      · exact Or.inr (Or.inl ⟨⟨rfl, rfl, hnum⟩, if_pos hnum⟩)
      · exact Or.inr (Or.inr ⟨by simp, fun hr => hnum hr.2.2, _, if_neg hnum⟩)
  | INCOMING_TX =>
    dsimp only
    cases hread : getTx H A grabFile (txidFromCorpus p.e) false with
    | ok r =>
      obtain ⟨p', hp', hholds⟩ := h.addIncoming hread
      refine Or.inl ⟨⟨r, rfl⟩, p', ?_, hholds⟩
      rw [hp']
      rfl
    | error stop =>
      refine Or.inr (Or.inr ⟨by simp, by simp, stop, ?_⟩)
      unfold Peer.addIncoming
      rw [hread]
      rfl
  | KNOWN =>
    dsimp only
    by_cases hkey : txidFromCorpus p.e ∈ p.mp.keys
    · have herase : (p.mp.erase (txidFromCorpus p.e)).2 = true :=
        UnorderedMap.erase_snd.mpr (UnorderedMap.mem_keys_iff.mp hkey)
      exact Or.inl ⟨(h.mem_iff _).mpr (Or.inl hkey), _, if_pos herase, h.del hkey⟩
    · have herase : ¬ (p.mp.erase (txidFromCorpus p.e)).2 = true := fun he =>
        hkey (UnorderedMap.mem_keys_iff.mpr (UnorderedMap.erase_snd.mp he))
      rw [if_neg herase, ← h.known_mem hkey]
      by_cases hu : txidFromCorpus p.e ∈ p.unknown
      · exact Or.inl ⟨hu, _, if_pos hu, h.delUnknown hkey⟩
      · exact Or.inr (Or.inr ⟨hu, by simp, _, if_neg hu⟩)
  | MEMPOOL_ONLY =>
    dsimp only
    have hfind : (p.mp.find (txidFromCorpus p.e)).isSome ∨ txidFromCorpus p.e ∈ p.unknown ↔
        txidFromCorpus p.e ∈ known := by
      rw [h.mem_iff, Option.isSome_iff_ne_none, Ne, UnorderedMap.find_eq_none_iff, not_not]
    rw [← hfind]
    split_ifs with hc
    · exact Or.inl ⟨hc, p, rfl, h⟩
    · exact Or.inr (Or.inr ⟨hc, by simp, _, rfl⟩)
  | UNKNOWN =>
    dsimp only
    have hfind : (p.mp.find (txidFromCorpus p.e)).isNone = true ↔ (txidFromCorpus p.e ∈ known →
        getTx H A grabFile (txidFromCorpus p.e) false = .ok none) := by
      rw [Option.isNone_iff_eq_none, UnorderedMap.find_eq_none_iff, h.mem_iff]
      constructor
      · exact fun hkey hk => h.unknown _ (hk.resolve_left hkey)
      · intro himp hkey
        obtain ⟨t, ht⟩ := h.read hkey
        cases ht.symm.trans (himp (Or.inl hkey))
    rw [← hfind]
    split_ifs with hc
    · exact Or.inl ⟨hc, p, rfl, h⟩
    · exact Or.inr (Or.inr ⟨hc, by simp, _, rfl⟩)

end Turn

/-! ## The loop -/

theorem CorpusEntry.Reaches.not_passes {blocknum : ℕ} {e : CorpusEntry} {known : Set BitcoinTxid}
    (h : e.Reaches blocknum) : ¬ e.Passes H A grabFile known := by
  obtain ⟨htype, horphan, -⟩ := h
  unfold CorpusEntry.Passes
  rw [htype]
  exact fun h => nomatch horphan.symm.trans h

/-- Consistent entries are played up to the block. -/
theorem nextEntries_returns {blocknum : ℕ} {p : Peer} {known : Set BitcoinTxid}
    (h : p.Holds H A grabFile known) {pre rest : List CorpusEntry} {e : CorpusEntry}
    (hpre : Consistent H A grabFile known pre) (he : e.Reaches blocknum) :
    ∃ p', nextEntries H A grabFile blocknum p (pre ++ e :: rest) = .ok p' := by
  induction pre generalizing p known with
  | nil =>
    rw [List.nil_append, nextEntries]
    rcases (h.move e rest).turn blocknum with ⟨hpass, -⟩ | ⟨-, hnone⟩ | ⟨-, hno, -⟩
    · exact absurd hpass he.not_passes
    · rw [hnone]
      exact ⟨_, rfl⟩
    · exact absurd he hno
  | cons e' pre ih =>
    obtain ⟨hpass, hpre⟩ := hpre
    rw [List.cons_append, nextEntries]
    rcases (h.move e' (pre ++ e :: rest)).turn blocknum with
      ⟨-, p₁, hp₁, hholds⟩ | ⟨hreach, -⟩ | ⟨hno, -⟩
    · rw [hp₁]
      exact ih hholds hpre
    · exact absurd hpass hreach.not_passes
    · exact absurd hpass hno

/-- What was played was consistent. -/
theorem nextEntries_sound {blocknum : ℕ} {p p' : Peer} {known : Set BitcoinTxid}
    (h : p.Holds H A grabFile known) {l : List CorpusEntry}
    (hrun : nextEntries H A grabFile blocknum p l = .ok p') :
    ∃ pre, l = pre ++ p'.e :: p'.rest ∧ Consistent H A grabFile known pre ∧
      p'.e.Reaches blocknum ∧ p'.Holds H A grabFile (pre.foldl CorpusEntry.after known) := by
  induction l generalizing p known with
  | nil => cases hrun
  | cons e rest ih =>
    obtain ⟨r, hturn, hrun⟩ := of_bind_ok hrun
    rcases (h.move e rest).turn blocknum with
      ⟨hpass, p₁, hp₁, hholds⟩ | ⟨hreach, hnone⟩ | ⟨-, -, stop, hstop⟩
    · obtain rfl : r = some p₁ := Except.ok.inj (hturn.symm.trans hp₁)
      obtain ⟨pre, rfl, hpre, hreach, hend⟩ := ih hholds hrun
      exact ⟨e :: pre, rfl, ⟨hpass, hpre⟩, hreach, hend⟩
    · obtain rfl : r = none := Except.ok.inj (hturn.symm.trans hnone)
      cases hrun
      exact ⟨[], rfl, trivial, hreach, h.move e rest⟩
    · exact nomatch hturn.symm.trans hstop

/-- **The replay.** `next_block` returns exactly if the entries up to the coinbase of the block go,
one after the other, with what the peer knows. Then it has read these and the coinbase, and no
more, and the peer knows what came in and has not been in a block. -/
theorem nextBlock_exact {p : Peer} {known : Set BitcoinTxid} (h : p.Holds H A grabFile known)
    (blocknum : ℕ) :
    ((∃ p', nextBlock H A grabFile blocknum p = .ok p') ↔ ∃ pre e rest, p.rest = pre ++ e :: rest ∧
      Consistent H A grabFile known pre ∧ e.Reaches blocknum) ∧
    ∀ p', nextBlock H A grabFile blocknum p = .ok p' → ∃ pre, p.rest = pre ++ p'.e :: p'.rest ∧
      Consistent H A grabFile known pre ∧ p'.e.Reaches blocknum ∧
      p'.Holds H A grabFile (pre.foldl CorpusEntry.after known) := by
  refine ⟨⟨fun ⟨p', hp'⟩ => ?_, fun ⟨pre, e, rest, hrest, hpre, he⟩ => ?_⟩,
    fun p' hp' => nextEntries_sound h hp'⟩
  · obtain ⟨pre, hrest, hpre, hreach, -⟩ := nextEntries_sound h hp'
    exact ⟨pre, p'.e, p'.rest, hrest, hpre, hreach⟩
  · unfold nextBlock
    rw [hrest]
    exact nextEntries_returns h hpre he

/-- What is played and the coinbase behind it are determined by the corpus. -/
theorem Consistent.unique {known : Set BitcoinTxid} {blocknum : ℕ}
    {pre pre' rest rest' : List CorpusEntry} {e e' : CorpusEntry}
    (hpre : Consistent H A grabFile known pre) (he : e.Reaches blocknum)
    (hpre' : Consistent H A grabFile known pre') (he' : e'.Reaches blocknum)
    (h : pre ++ e :: rest = pre' ++ e' :: rest') : pre = pre' ∧ e = e' ∧ rest = rest' := by
  induction pre generalizing known pre' with
  | nil =>
    cases pre' with
    | nil => exact ⟨rfl, List.cons_eq_cons.mp h⟩
    | cons x pre' =>
      obtain ⟨rfl, -⟩ := List.cons_eq_cons.mp h
      exact absurd hpre'.1 he.not_passes
  | cons x pre ih =>
    cases pre' with
    | nil =>
      obtain ⟨rfl, -⟩ := List.cons_eq_cons.mp h
      exact absurd hpre.1 he'.not_passes
    | cons x' pre' =>
      obtain ⟨rfl, htail⟩ := List.cons_eq_cons.mp h
      obtain ⟨rfl, heq⟩ := ih hpre.2 hpre'.2 htail
      exact ⟨rfl, heq⟩

/-- Every file holds the blank transaction, without a fee. -/
def blankFile (_ : List Char) : Option (List U8) :=
  some (List.replicate 8 0 ++ txBytes BitcoinTx.blank)

def blankEntry (type : CorpusEntryType) (blocknum : ℕ) : CorpusEntry :=
  ⟨type, blocknum, zeroBytes 32⟩

theorem txidFromCorpus_blank (type : CorpusEntryType) (blocknum : ℕ) :
    txidFromCorpus (blankEntry type blocknum) = zeroBytes 32 := by
  refine Subtype.ext ?_
  show (List.replicate 32 0).reverse = List.replicate 32 0
  exact List.reverse_replicate

theorem getTx_blankFile (txid : BitcoinTxid) (mustExist : Bool) :
    getTx spreadHashes (fun _ _ => true) blankFile txid mustExist =
      if zeroBytes 32 = txid then .ok (some ⟨0, zeroBytes 32, BitcoinTx.blank⟩)
      else .error (.fault .assertion) := by
  have hparse := parse_append (A := fun _ _ => true) (fun _ _ => rfl) BitcoinTx.blank []
  rw [List.append_nil] at hparse
  have hdrop : (List.replicate 8 (0 : U8) ++ txBytes BitcoinTx.blank).drop 8 =
      txBytes BitcoinTx.blank := rfl
  unfold getTx blankFile
  dsimp only
  rw [if_neg (by simp), hdrop, hparse]
  rfl

theorem getTx_blank (mustExist : Bool) :
    getTx spreadHashes (fun _ _ => true) blankFile (zeroBytes 32) mustExist =
      .ok (some ⟨0, zeroBytes 32, BitcoinTx.blank⟩) := by
  rw [getTx_blankFile, if_pos rfl]

theorem orphaned_zero : orphaned (zeroBytes 32) = .ok false := by decide

/-- A transaction comes in and is in the block, whose coinbase is the last that is read. -/
theorem nextBlock_exact_blank : ∃ p', nextBlock spreadHashes (fun _ _ => true) blankFile 2
    ⟨"peer", UnorderedMap.empty, UnorderedSet.empty, blankEntry .COINBASE 1,
      [blankEntry .INCOMING_TX 0, blankEntry .KNOWN 0, blankEntry .COINBASE 2,
        blankEntry .INCOMING_TX 0]⟩ = .ok p' ∧
    p'.e = blankEntry .COINBASE 2 ∧ p'.rest = [blankEntry .INCOMING_TX 0] ∧
    p'.Holds spreadHashes (fun _ _ => true) blankFile ∅ := by
  have hempty : (⟨"peer", UnorderedMap.empty, UnorderedSet.empty, blankEntry .COINBASE 1,
      [blankEntry .INCOMING_TX 0, blankEntry .KNOWN 0, blankEntry .COINBASE 2,
        blankEntry .INCOMING_TX 0]⟩ : Peer).Holds
      spreadHashes (fun _ _ => true) blankFile ∅ := Peer.holds_empty _ _ _
  have hread : ∃ r, getTx spreadHashes (fun _ _ => true) blankFile
      (txidFromCorpus (blankEntry .INCOMING_TX 0)) false = .ok r := by
    rw [txidFromCorpus_blank]
    exact ⟨_, getTx_blank false⟩
  have hreaches : (blankEntry .COINBASE 2).Reaches 2 := by
    refine ⟨rfl, ?_, rfl⟩
    rw [txidFromCorpus_blank]
    exact orphaned_zero
  have hpre : Consistent spreadHashes (fun _ _ => true) blankFile ∅
      [blankEntry .INCOMING_TX 0, blankEntry .KNOWN 0] := ⟨hread, Set.mem_insert _ _, trivial⟩
  obtain ⟨hiff, hend⟩ := nextBlock_exact hempty 2
  obtain ⟨p', hp'⟩ := hiff.mpr ⟨_, _, _, rfl, hpre, hreaches⟩
  obtain ⟨pre, hrest, hpre', hreaches', hholds⟩ := hend p' hp'
  obtain ⟨rfl, he, hrest⟩ := hpre.unique hreaches hpre' hreaches' hrest
  refine ⟨p', hp', he.symm, hrest.symm, ?_⟩
  have hafter : [blankEntry .INCOMING_TX 0, blankEntry .KNOWN 0].foldl CorpusEntry.after ∅ = ∅ := by
    show insert (zeroBytes 32) ∅ \ {zeroBytes 32} = (∅ : Set BitcoinTxid)
    simp
  rwa [hafter] at hholds

end BitcoinIblt
