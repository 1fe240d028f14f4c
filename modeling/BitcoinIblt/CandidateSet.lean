import BitcoinIblt.SelectionHeuristic

/-!
# The candidates of the full protocol

`generate_block` and `decode_block` of `iblt-test.cpp`, between the mempools and the table. The
generator lists what the minimum fee would classify wrongly: transactions of the block below it as
`added`, and transactions outside the block that are not below it as `removed`. The decoder starts
from its pool, takes out what `removed` hits and puts in what `added` hits.

"First, take all which exceed the given satoshi_per_byte", says the decoder's comment, but the loop
below it takes every transaction. A transaction that both sides know, below the fee and outside the
block, is then in no list and stays a candidate: the candidates are what the decoder has of the
block exactly if there is no such transaction (`candidates_exact_iff`).
-/

namespace BitcoinIblt

open Transition

variable (H : Hashes) (seed minFeePerByte : U64)

/-! ## The code -/

/-- "We assume 10,000 satoshi for 1000 bytes." -/
def assumedMinFee : U64 := 10 <<< 13

/-- "If this was an exception to our minimum, encode it." -/
def listIfBelow (pool : IbltPool) (added : TxbitsSet) (t : Tx) : Run TxbitsSet :=
  if t.satoshiPerByte < minFeePerByte then listTx H seed pool added t.txid else return added

/-- "What didn't we include, that would be expected?" -/
def listIfExpected (block : UnorderedSet Tx) (pool : IbltPool) (removed : TxbitsSet)
    (p : Txid48 × Tx) : Run TxbitsSet :=
  if minFeePerByte ≤ p.2.satoshiPerByte then
    if p.2 ∉ block.toList then do
      let bvec ← pool.tree.getUniqueBitid p.1
      removed.insert bvec
    else return removed
  else return removed

/-- What `generate_block` leaves behind: the lists, the lengths it prints and the mempool. -/
structure GeneratedBlock where
  added : TxbitsSet
  removed : TxbitsSet
  addedLength : ℕ
  removedLength : ℕ
  mempool : Txmap

/-- `generate_block`, once the transactions of the block are known and in the mempool. -/
def generateBlock (mp : Txmap) (block : UnorderedSet Tx) : Run GeneratedBlock := do
  let pool ← IbltPool.new H seed mp
  let added ← block.toList.foldlM (listIfBelow H seed minFeePerByte pool) TxbitsSet.empty
  let removed ← pool.txByTxid48.entries.foldlM (listIfExpected minFeePerByte block pool)
    TxbitsSet.empty
  let addedBytes ← addBitset [] added
  let removedBytes ← addBitset [] removed
  -- "Now remove everything in block from our mempool."
  return ⟨added, removed, addedBytes.length, removedBytes.length,
    block.toList.foldl (fun mp t => (mp.erase t.txid).1) mp⟩

/-- `decode_block` up to the table of its own: the candidates. -/
def decodeCandidates (added removed : TxbitsSet) (mp : Txmap) : Run (UnorderedSet Tx) := do
  let pool ← IbltPool.new H seed mp
  -- "First, take all which exceed the given satoshi_per_byte."
  let candidates := pool.txByTxid48.entries.foldl (fun c it => c.insert it.2) UnorderedSet.empty
  -- "We can have more than one match: remove them all."
  let candidates := (hitTxs pool removed).foldl UnorderedSet.erase candidates
  return (hitTxs pool added).foldl (fun c t =>
    if t.satoshiPerByte < minFeePerByte then c.insert t else c) candidates

/-! ## The generator -/

variable {H} {seed} {minFeePerByte}

/-- Lists of the same entries. -/
theorem Listed.congr {pool : IbltPool} {P P' : BitcoinTxid × Tx → Prop}
    {entries entries' : List (BitcoinTxid × Tx)} {list : TxbitsSet}
    (h : Listed H seed pool P entries list)
    (heq : ∀ e, (e ∈ entries ∧ P e) ↔ (e ∈ entries' ∧ P' e)) :
    Listed H seed pool P' entries' list := by
  intro i v
  rw [h i v]
  refine and_congr_right fun _ => exists_congr fun e => ?_
  rw [← and_assoc, ← and_assoc, heq e]

section Generator

variable {pool : IbltPool} {mp : Txmap} (hpool : pool.Holds H seed mp.entries) (hseed : seed ≠ 0)

include hpool hseed in
/-- A loop that lists the entries with the property `P`. -/
theorem foldlM_listed {γ : Type} {P : BitcoinTxid × Tx → Prop} [DecidablePred P] (l : List γ)
    (entry : γ → BitcoinTxid × Tx) (body : TxbitsSet → γ → Run TxbitsSet)
    (hmem : ∀ g ∈ l, entry g ∈ mp.entries)
    (hbody : ∀ g ∈ l, ∀ list, body list g =
      if P (entry g) then listTx H seed pool list (entry g).1 else .ok list) :
    ∃ list, l.foldlM body TxbitsSet.empty = .ok list ∧
      Listed H seed pool P (l.map entry) list := by
  refine foldlM_inv (fun done list => Listed H seed pool P (done.map entry) list) l
    (fun done g rest list hl h => ?_) TxbitsSet.empty listed_nil
  have hg : g ∈ l := by simp [hl]
  rw [hbody g hg, List.map_append]
  split_ifs with hP
  · exact h.add hpool hseed (hmem g hg) hP
  · exact ⟨list, rfl, h.skip hP⟩

variable (hkeyed : mp.Keyed)

include hpool hseed hkeyed in
/-- `added`: the transactions of the block below the fee. -/
theorem listIfBelow_ok (minFeePerByte : U64) {block : UnorderedSet Tx}
    (hblock : ∀ t ∈ block, (t.txid, t) ∈ mp.entries) :
    ∃ added, block.toList.foldlM (listIfBelow H seed minFeePerByte pool) TxbitsSet.empty
        = .ok added ∧
      Listed H seed pool (fun e => e.2.satoshiPerByte < minFeePerByte ∧ e.2 ∈ block)
        mp.entries added := by
  obtain ⟨added, hadded, hl⟩ := foldlM_listed hpool hseed
    (P := fun e => e.2.satoshiPerByte < minFeePerByte) block.toList (fun t => (t.txid, t))
    (listIfBelow H seed minFeePerByte pool) hblock (fun t _ list => rfl)
  refine ⟨added, hadded, hl.congr fun e => ?_⟩
  rw [List.mem_map]
  constructor
  · rintro ⟨⟨t, ht, rfl⟩, hlt⟩
    exact ⟨hblock t ht, hlt, ht⟩
  · rintro ⟨he, hlt, hb⟩
    exact ⟨⟨e.2, hb, Prod.ext (hkeyed e he) rfl⟩, hlt⟩

include hpool hseed hkeyed in
/-- `removed`: the transactions outside the block that are not below the fee. -/
theorem listIfExpected_ok (minFeePerByte : U64) (block : UnorderedSet Tx) :
    ∃ removed, pool.txByTxid48.entries.foldlM (listIfExpected minFeePerByte block pool)
        TxbitsSet.empty = .ok removed ∧
      Listed H seed pool (fun e => minFeePerByte ≤ e.2.satoshiPerByte ∧ e.2 ∉ block.toList)
        mp.entries removed := by
  have hentry : ∀ p ∈ pool.txByTxid48.entries,
      (p.2.txid, p.2) ∈ mp.entries ∧ p.1 = txid48 H seed p.2.txid := by
    intro p hp
    obtain ⟨e, he, rfl⟩ := List.mem_map.mp (hpool.byId.mem_iff.mp hp)
    have hkey : (e.2.txid, e.2) = e := Prod.ext (hkeyed e he) rfl
    show (e.2.txid, e.2) ∈ mp.entries ∧ txid48 H seed e.1 = txid48 H seed e.2.txid
    rw [hkey, hkeyed e he]
    exact ⟨he, rfl⟩
  obtain ⟨removed, hremoved, hl⟩ := foldlM_listed hpool hseed
    (P := fun e => minFeePerByte ≤ e.2.satoshiPerByte ∧ e.2 ∉ block.toList)
    pool.txByTxid48.entries (fun p => (p.2.txid, p.2)) (listIfExpected minFeePerByte block pool)
    (fun p hp => (hentry p hp).1) (fun p hp list => by
      rw [listIfExpected, listTx, Txid48.new, if_neg hseed, ok_bind, ← (hentry p hp).2]
      by_cases hfee : minFeePerByte ≤ p.2.satoshiPerByte <;> by_cases hb : p.2 ∉ block.toList
      · rw [if_pos hfee, if_pos hb, if_pos ⟨hfee, hb⟩]
      · rw [if_pos hfee, if_neg hb, if_neg fun h => hb h.2]; rfl
      · rw [if_neg hfee, if_neg fun h => hfee h.1]; rfl
      · rw [if_neg hfee, if_neg fun h => hfee h.1]; rfl)
  refine ⟨removed, hremoved, hl.congr fun e => and_congr_left fun _ => ?_⟩
  rw [List.mem_map]
  constructor
  · rintro ⟨p, hp, rfl⟩
    exact (hentry p hp).1
  · intro he
    exact ⟨poolEntry H seed e, hpool.byId.mem_iff.mpr (List.mem_map_of_mem he),
      Prod.ext (hkeyed e he) rfl⟩

include hseed in
/-- **The generator.** -/
theorem generateBlock_ok (minFeePerByte : U64) (block : UnorderedSet Tx)
    (hids : mp.DistinctIds H seed) (hkeyed : mp.Keyed)
    (hblock : ∀ t ∈ block, (t.txid, t) ∈ mp.entries) :
    ∃ pool r, pool.Holds H seed mp.entries ∧
      generateBlock H seed minFeePerByte mp block = .ok r ∧
      Listed H seed pool (fun e => e.2.satoshiPerByte < minFeePerByte ∧ e.2 ∈ block)
        mp.entries r.added ∧
      Listed H seed pool (fun e => minFeePerByte ≤ e.2.satoshiPerByte ∧ e.2 ∉ block.toList)
        mp.entries r.removed := by
  obtain ⟨pool, hnew, hpool⟩ := IbltPool.new_ok hseed hids
  obtain ⟨added, hadded, ha⟩ := listIfBelow_ok hpool hseed hkeyed minFeePerByte hblock
  obtain ⟨removed, hremoved, hr⟩ := listIfExpected_ok hpool hseed hkeyed minFeePerByte block
  obtain ⟨ea, -, hea⟩ := addBitset_ok (ha.wellFormed hpool fun e he => he)
  obtain ⟨er, -, her⟩ := addBitset_ok (hr.wellFormed hpool fun e he => he)
  refine ⟨pool, ⟨added, removed, ea.bytes.length, er.bytes.length,
    block.toList.foldl (fun mp t => (mp.erase t.txid).1) mp⟩, hpool, ?_, ha, hr⟩
  rw [generateBlock, hnew, ok_bind, hadded, ok_bind, hremoved, ok_bind, hea, ok_bind, her, ok_bind]
  rfl

end Generator

/-! ## The decoder -/

/-- Lists with the same strings hit the same entries. -/
theorem TxbitsSet.Same.hit_iff {list list' : TxbitsSet} (h : list'.Same list)
    {e : BitcoinTxid × Tx} : Hit H seed list' e ↔ Hit H seed list e := by
  refine exists_congr fun i => ?_
  by_cases hi : i < 49
  · rw [list.strings_of_lt hi, list'.strings_of_lt hi]
    exact exists_congr fun v => and_congr_left fun _ => h i hi v
  · simp [TxbitsSet.strings, hi]

/-- **The decoder.** It keeps what `removed` does not hit, and takes back what is below the fee and
`added` hits. -/
theorem decodeCandidates_of_pool {pool : IbltPool} {mp : Txmap}
    (hnew : IbltPool.new H seed mp = .ok pool) (hpool : pool.Holds H seed mp.entries)
    (minFeePerByte : U64) (hkeyed : mp.Keyed) (added removed : TxbitsSet) :
    ∃ candidates, decodeCandidates H seed minFeePerByte added removed mp = .ok candidates ∧
      ∀ t, t ∈ candidates ↔ (t.txid, t) ∈ mp.entries ∧
        (¬ Hit H seed removed (t.txid, t) ∨
          (t.satoshiPerByte < minFeePerByte ∧ Hit H seed added (t.txid, t))) := by
  have hall : ∀ t, t ∈ pool.txByTxid48.entries.map Prod.snd ↔ (t.txid, t) ∈ mp.entries := by
    intro t
    rw [(hpool.byId.map Prod.snd).mem_iff, List.map_map, List.mem_map]
    constructor
    · rintro ⟨e, he, rfl⟩
      have hkey : (e.2.txid, e.2) = e := Prod.ext (hkeyed e he) rfl
      show (e.2.txid, e.2) ∈ mp.entries
      rw [hkey]
      exact he
    · exact fun he => ⟨_, he, rfl⟩
  refine ⟨_, by rw [decodeCandidates, hnew, ok_bind]; rfl, fun t => ?_⟩
  have hfilter : ∀ (l : List Tx) (c : UnorderedSet Tx),
      l.foldl (fun c t => if t.satoshiPerByte < minFeePerByte then c.insert t else c) c =
        (l.filter fun t => t.satoshiPerByte < minFeePerByte).foldl (fun c t => c.insert t) c := by
    intro l c
    simp only [List.foldl_filter, decide_eq_true_eq]
  rw [hfilter, UnorderedSet.mem_foldl_insert (fun t => t), UnorderedSet.mem_foldl_erase,
    UnorderedSet.mem_foldl_insert Prod.snd, hall, List.map_id', List.mem_filter,
    mem_hitTxs_iff hpool hkeyed, mem_hitTxs_iff hpool hkeyed, decide_eq_true_eq]
  simp only [UnorderedSet.not_mem_empty, false_or]
  tauto

theorem decodeCandidates_ok (hseed : seed ≠ 0) (minFeePerByte : U64) {mp : Txmap}
    (hids : mp.DistinctIds H seed) (hkeyed : mp.Keyed) (added removed : TxbitsSet) :
    ∃ candidates, decodeCandidates H seed minFeePerByte added removed mp = .ok candidates ∧
      ∀ t, t ∈ candidates ↔ (t.txid, t) ∈ mp.entries ∧
        (¬ Hit H seed removed (t.txid, t) ∨
          (t.satoshiPerByte < minFeePerByte ∧ Hit H seed added (t.txid, t))) := by
  obtain ⟨pool, hnew, hpool⟩ := IbltPool.new_ok hseed hids
  exact decodeCandidates_of_pool hnew hpool minFeePerByte hkeyed added removed

/-- **The candidates are what the decoder has of the block**, as far as the generator knows its
transactions, if and only if the fee is met by every transaction that both know and the block does
not have. -/
theorem candidates_exact_iff (hseed : seed ≠ 0) (minFeePerByte : U64) (M₁ M₂ : Txmap)
    (block : UnorderedSet Tx) (hblock : ∀ t ∈ block, (t.txid, t) ∈ M₁.entries)
    (hids₁ : M₁.DistinctIds H seed) (hids₂ : M₂.DistinctIds H seed)
    (hkeyed₁ : M₁.Keyed) (hkeyed₂ : M₂.Keyed) :
    ∃ r, generateBlock H seed minFeePerByte M₁ block = .ok r ∧
      ∀ added removed : TxbitsSet, added.Same r.added → removed.Same r.removed →
        ∃ candidates,
          decodeCandidates H seed minFeePerByte added removed M₂ = .ok candidates ∧
          ((∀ e ∈ M₁.entries, e.2 ∈ candidates ↔ e ∈ M₂.entries ∧ e.2 ∈ block) ↔
            ∀ e ∈ M₁.entries, e ∈ M₂.entries → e.2 ∉ block.toList →
              minFeePerByte ≤ e.2.satoshiPerByte) := by
  obtain ⟨pool, r, hpool, hgen, hadded, hremoved⟩ :=
    generateBlock_ok hseed minFeePerByte block hids₁ hkeyed₁ hblock
  refine ⟨r, hgen, fun added removed ha hr => ?_⟩
  obtain ⟨candidates, hdec, hmem⟩ :=
    decodeCandidates_ok hseed minFeePerByte hids₂ hkeyed₂ added removed
  refine ⟨candidates, hdec, forall_congr' fun e => ?_⟩
  refine ⟨fun h he => ?_, fun h he => ?_⟩
  all_goals
    have hkey : (e.2.txid, e.2) = e := Prod.ext (hkeyed₁ e he) rfl
    have hcand := hmem e.2
    rw [hkey, ha.hit_iff, hr.hit_iff, hadded.hit_iff hpool hids₁ he,
      hremoved.hit_iff hpool hids₁ he, ← BitVec.not_lt, ← UnorderedSet.mem_def] at hcand
  · have hiff := h he
    rw [← BitVec.not_lt, ← UnorderedSet.mem_def]
    tauto
  · have hfee := h he
    rw [← BitVec.not_lt, ← UnorderedSet.mem_def] at hfee
    tauto

/-- With a minimum of zero, a transaction outside the block is taken out. -/
theorem candidates_exact_leftTxs : ∃ r,
    generateBlock headHashes 1 0 leftTxs (UnorderedSet.empty.insert (headTx 0 0)) = .ok r ∧
      ∃ candidates, decodeCandidates headHashes 1 0 r.added r.removed leftTxs = .ok candidates ∧
        headTx 0 0 ∈ candidates ∧ headTx 1 0 ∉ candidates := by
  have hids : leftTxs.DistinctIds headHashes 1 := headTxs_distinctIds _ 1
  have hmem : ∀ t, t ∈ UnorderedSet.empty.insert (headTx 0 0) ↔ t = headTx 0 0 := fun t =>
    UnorderedSet.mem_insert.trans (or_iff_left (UnorderedSet.not_mem_empty t))
  obtain ⟨r, hgen, hdec⟩ := candidates_exact_iff (H := headHashes) (show (1 : U64) ≠ 0 by decide) 0
    leftTxs leftTxs (UnorderedSet.empty.insert (headTx 0 0))
    (fun t ht => (hmem t).mp ht ▸ List.mem_cons_self) hids hids (headTxs_keyed _) (headTxs_keyed _)
  obtain ⟨candidates, hcand, hiff⟩ :=
    hdec r.added r.removed (fun _ _ _ => Iff.rfl) fun _ _ _ => Iff.rfl
  have hexact := hiff.mpr fun e _ _ _ => BitVec.le_def.mpr (Nat.zero_le _)
  refine ⟨r, hgen, candidates, hcand, ?_, fun h => ?_⟩
  · exact (hexact (headEntry (0, 0)) List.mem_cons_self).mpr
      ⟨List.mem_cons_self, (hmem _).mpr rfl⟩
  · have hin := ((hexact (headEntry (1, 0)) (List.mem_cons_of_mem _ List.mem_cons_self)).mp h).2
    have htxid : headTxid 1 = headTxid 0 := congrArg Tx.txid ((hmem _).mp hin)
    exact absurd (headTxid_injective htxid) (by decide)

/-- With the minimum that the code assumes, a transaction without a fee that both know stays a
candidate of an empty block. -/
theorem candidates_not_exact : ∃ r candidates,
    generateBlock zeroHashes 1 assumedMinFee oneTx UnorderedSet.empty = .ok r ∧
      decodeCandidates zeroHashes 1 assumedMinFee r.added r.removed oneTx = .ok candidates ∧
      ¬ ∀ e ∈ oneTx.entries,
        e.2 ∈ candidates ↔ e ∈ oneTx.entries ∧ e.2 ∈ (UnorderedSet.empty : UnorderedSet Tx) := by
  have hseed : (1 : U64) ≠ 0 := by decide
  have hids : oneTx.DistinctIds zeroHashes 1 := List.nodup_singleton _
  obtain ⟨pool, r, hpool, hgen, -, hremoved⟩ :=
    generateBlock_ok hseed assumedMinFee UnorderedSet.empty hids oneTx_keyed
      fun t ht => absurd ht (UnorderedSet.not_mem_empty t)
  obtain ⟨candidates, hdec, hmem⟩ :=
    decodeCandidates_ok hseed assumedMinFee hids oneTx_keyed r.added r.removed
  refine ⟨r, candidates, hgen, hdec, fun h => ?_⟩
  obtain ⟨e, he⟩ : ∃ e, e ∈ oneTx.entries := ⟨_, mem_oneTx.mpr rfl⟩
  have hkey : (e.2.txid, e.2) = e := Prod.ext (oneTx_keyed e he) rfl
  have hzero : e.2.satoshiPerByte = 0 := by
    rw [mem_oneTx.mp he]
    exact BitVec.zero_shiftLeft _
  have hlow : ¬ assumedMinFee ≤ e.2.satoshiPerByte := by
    rw [hzero]
    decide
  have hcand : e.2 ∈ candidates := by
    rw [hmem, hkey, hremoved.hit_iff hpool hids he]
    exact ⟨he, Or.inl fun hr => hlow hr.1⟩
  exact UnorderedSet.not_mem_empty _ ((h e he).mp hcand).2

end BitcoinIblt
