import BitcoinIblt.BitsetCodec
import BitcoinIblt.IbltPool
import BitcoinIblt.Lib.Reachable

/-!
# The selection heuristic

`iblt-selection-heuristic.cpp`. The first mempool of a block is the sender's: the transactions that
the fee alone would classify wrongly are listed by a prefix of their short id that is unique in
that mempool. Every other mempool is a receiver's: it takes the transactions above the fee, then
what the first list hits, without what the second list hits. A prefix can hit strangers in the
receiver's mempool, but never another transaction of the sender's (`selection_exact`).
-/

namespace BitcoinIblt

open Transition

variable (H : Hashes) (seed feeHint : U64)

/-! ## The sender -/

/-- `added_list` and `removed_list`. -/
structure SelectionLists where
  added : TxbitsSet
  removed : TxbitsSet

/-- `list[bvec.size()].insert(bvec)` -/
def TxbitsSet.insert (list : TxbitsSet) (bvec : List Bool) : Run TxbitsSet := do
  let s ← list.entry bvec.length
  list.assign bvec.length (s.insert bvec)

/-- The unique prefix of a transaction, put into one of the lists. -/
def listTx (pool : IbltPool) (list : TxbitsSet) (txid : BitcoinTxid) : Run TxbitsSet := do
  let id48 ← Txid48.new H seed txid
  let bvec ← pool.tree.getUniqueBitid id48
  list.insert bvec

/-- The body of the sender's loop. -/
def classify (block : Txmap) (pool : IbltPool) (lists : SelectionLists) (p : BitcoinTxid × Tx) :
    Run SelectionLists :=
  if p.2.satoshiPerByte < feeHint then
    if block.find p.1 ≠ none then do
      let added ← listTx H seed pool lists.added p.1
      return { lists with added }
    else return lists
  else
    if block.find p.1 = none then do
      let removed ← listTx H seed pool lists.removed p.1
      return { lists with removed }
    else return lists

/-- The lines for the first mempool: the lists, and their encoding, which counts as overhead. -/
def selectionSender (block mempool : Txmap) : Run (SelectionLists × List U8) := do
  let pool ← IbltPool.new H seed mempool
  let lists ← mempool.entries.foldlM (classify H seed feeHint block pool)
    ⟨TxbitsSet.empty, TxbitsSet.empty⟩
  let bytes := varintBytes seed ++ varintBytes feeHint
  let bytes ← addBitset bytes lists.added
  let bytes ← addBitset bytes lists.removed
  return (lists, bytes)

/-! ## The receiver -/

/-- "Start by including every tx which meets fee hint." -/
def meetingFee (mempool : Txmap) : Txmap :=
  mempool.entries.foldl (fun newmempool p =>
    if feeHint ≤ p.2.satoshiPerByte then (newmempool.insert p.1 p.2).1 else newmempool)
    UnorderedMap.empty

/-- The loop over the transactions that a list hits. -/
def forHits (pool : IbltPool) (list : TxbitsSet) (body : Txmap → Tx → Txmap) (m : Txmap) : Txmap :=
  list.toList.foldl (fun m s =>
    s.toList.foldl (fun m v => (pool.getTxs v).foldl body m) m) m

/-- The lines for a later mempool: `newmempool`. -/
def selectionReceiver (lists : SelectionLists) (mempool : Txmap) : Run Txmap := do
  let pool ← IbltPool.new H seed mempool
  let newmempool := meetingFee feeHint mempool
  let newmempool := forHits pool lists.added (fun m t => (m.insert t.txid t).1) newmempool
  return forHits pool lists.removed (fun m t => (m.erase t.txid).1) newmempool

/-! ## The lists -/

theorem TxbitsSet.insert_ok (list : TxbitsSet) {bvec : List Bool} (h : bvec.length ≤ 48) :
    ∃ list', list.insert bvec = .ok list' ∧
      ∀ i v, v ∈ list'.strings i ↔ v ∈ list.strings i ∨ (i = bvec.length ∧ v = bvec) := by
  have hlt : bvec.length < 49 := by omega
  refine ⟨list.set bvec.length (list[bvec.length].insert bvec), ?_, fun i v => ?_⟩
  · rw [TxbitsSet.insert, TxbitsSet.entry, dif_pos hlt, ok_bind, TxbitsSet.assign, dif_pos hlt]
  · rw [list.strings_set hlt]
    split_ifs with he
    · rw [← UnorderedSet.mem_def, UnorderedSet.mem_insert, UnorderedSet.mem_def, he,
        list.strings_of_lt hlt]
      tauto
    · simp [he]

/-- Below the fee though in the block, or not below it though not in the block. -/
def Exception (block : Txmap) (included : Bool) (e : BitcoinTxid × Tx) : Prop :=
  if included then e.2.satoshiPerByte < feeHint ∧ e.1 ∈ block.keys
  else ¬ e.2.satoshiPerByte < feeHint ∧ e.1 ∉ block.keys

/-- The list holds the unique prefixes of the entries with the property `P`. -/
def Listed (pool : IbltPool) (P : BitcoinTxid × Tx → Prop) (entries : List (BitcoinTxid × Tx))
    (list : TxbitsSet) : Prop :=
  ∀ i v, v ∈ list.strings i ↔ v.length = i ∧
    ∃ e ∈ entries, P e ∧ pool.tree.getUniqueBitid (txid48 H seed e.1) = .ok v

section Sender

variable {H} {seed} {pool : IbltPool} {P : BitcoinTxid × Tx → Prop}
  {entries : List (BitcoinTxid × Tx)} {list : TxbitsSet}

omit H seed in
theorem exists_mem_append_singleton {α : Type} {p : α → Prop} {l : List α} {a : α} :
    (∃ x ∈ l ++ [a], p x) ↔ (∃ x ∈ l, p x) ∨ p a := by
  simp [or_and_right, exists_or]

theorem listed_nil : Listed H seed pool P [] TxbitsSet.empty := by
  intro i v
  simp [TxbitsSet.strings_empty]

theorem Listed.skip (h : Listed H seed pool P entries list) {e : BitcoinTxid × Tx} (he : ¬ P e) :
    Listed H seed pool P (entries ++ [e]) list := by
  intro i v
  rw [h i v, exists_mem_append_singleton]
  simp [he]

variable {mempool : Txmap} (hpool : pool.Holds H seed mempool.entries) (hseed : seed ≠ 0)

include hpool in
/-- The lists can be encoded. -/
theorem Listed.wellFormed (h : Listed H seed pool P entries list)
    (hsub : ∀ e ∈ entries, e ∈ mempool.entries) : list.WellFormed := by
  refine ⟨List.eq_nil_iff_forall_not_mem.mpr fun v hv => ?_, fun i v hv => ((h i v).mp hv).1⟩
  obtain ⟨hlen, e, he, -, hbits⟩ := (h 0 v).mp hv
  obtain ⟨v', hv', hpos, -⟩ := hpool.uniqueBitid (hsub e he)
  rw [hbits] at hv'
  cases hv'
  omega

include hpool hseed in
theorem Listed.add (h : Listed H seed pool P entries list) {e : BitcoinTxid × Tx}
    (hmem : e ∈ mempool.entries) (he : P e) :
    ∃ list', listTx H seed pool list e.1 = .ok list' ∧
      Listed H seed pool P (entries ++ [e]) list' := by
  obtain ⟨bvec, hbits, -, hle, -⟩ := hpool.uniqueBitid hmem
  obtain ⟨list', hlist, hstrings⟩ := list.insert_ok hle
  refine ⟨list', by rw [listTx, Txid48.new, if_neg hseed, ok_bind, hbits, ok_bind, hlist],
    fun i v => ?_⟩
  rw [hstrings, h i v, exists_mem_append_singleton]
  constructor
  · rintro (⟨hlen, hv⟩ | ⟨rfl, rfl⟩)
    · exact ⟨hlen, Or.inl hv⟩
    · exact ⟨rfl, Or.inr ⟨he, hbits⟩⟩
  · rintro ⟨rfl, hv | ⟨-, hv⟩⟩
    · exact Or.inl ⟨rfl, hv⟩
    · rw [hbits] at hv
      cases hv
      exact Or.inr ⟨rfl, rfl⟩

variable {feeHint} {block : Txmap}

include hpool hseed in
/-- One turn of the sender's loop. -/
theorem classify_ok {lists : SelectionLists}
    (hadded : Listed H seed pool (Exception feeHint block true) entries lists.added)
    (hremoved : Listed H seed pool (Exception feeHint block false) entries lists.removed)
    {e : BitcoinTxid × Tx} (he : e ∈ mempool.entries) :
    ∃ lists', classify H seed feeHint block pool lists e = .ok lists' ∧
      Listed H seed pool (Exception feeHint block true) (entries ++ [e]) lists'.added ∧
      Listed H seed pool (Exception feeHint block false) (entries ++ [e]) lists'.removed := by
  unfold classify
  by_cases hfee : e.2.satoshiPerByte < feeHint <;> by_cases hblock : e.1 ∈ block.keys
  · have hfind : block.find e.1 ≠ none := fun h => UnorderedMap.find_eq_none_iff.mp h hblock
    obtain ⟨list', hlist, hl⟩ := hadded.add hpool hseed he ⟨hfee, hblock⟩
    rw [if_pos hfee, if_pos hfind, hlist]
    exact ⟨_, rfl, hl, hremoved.skip fun h => h.1 hfee⟩
  · have hfind : ¬ block.find e.1 ≠ none := not_not.mpr (UnorderedMap.find_eq_none_iff.mpr hblock)
    rw [if_pos hfee, if_neg hfind]
    exact ⟨_, rfl, hadded.skip fun h => hblock h.2, hremoved.skip fun h => h.1 hfee⟩
  · have hfind : ¬ block.find e.1 = none := fun h => UnorderedMap.find_eq_none_iff.mp h hblock
    rw [if_neg hfee, if_neg hfind]
    exact ⟨_, rfl, hadded.skip fun h => hfee h.1, hremoved.skip fun h => h.2 hblock⟩
  · obtain ⟨list', hlist, hl⟩ := hremoved.add hpool hseed he ⟨hfee, hblock⟩
    rw [if_neg hfee, if_pos (UnorderedMap.find_eq_none_iff.mpr hblock), hlist]
    exact ⟨_, rfl, hadded.skip fun h => hfee h.1, hl⟩

include hseed in
/-- **The sender.** The lists hold the unique prefixes of the exceptions, and can be encoded. -/
theorem selectionSender_ok (feeHint : U64) (block : Txmap) (hids : mempool.DistinctIds H seed) :
    ∃ pool lists bytes, pool.Holds H seed mempool.entries ∧
      selectionSender H seed feeHint block mempool = .ok (lists, bytes) ∧
      Listed H seed pool (Exception feeHint block true) mempool.entries lists.added ∧
      Listed H seed pool (Exception feeHint block false) mempool.entries lists.removed := by
  obtain ⟨pool, hnew, hpool⟩ := IbltPool.new_ok hseed hids
  obtain ⟨lists, hlists, ha, hr⟩ := foldlM_inv (fun done (lists : SelectionLists) =>
      Listed H seed pool (Exception feeHint block true) done lists.added ∧
        Listed H seed pool (Exception feeHint block false) done lists.removed) mempool.entries
    (fun done e rest lists hm ⟨ha, hr⟩ => classify_ok hpool hseed ha hr (by simp [hm]))
    ⟨TxbitsSet.empty, TxbitsSet.empty⟩ ⟨listed_nil, listed_nil⟩
  obtain ⟨ea, -, hea⟩ := addBitset_ok (ha.wellFormed hpool fun e he => he)
  obtain ⟨er, -, her⟩ := addBitset_ok (hr.wellFormed hpool fun e he => he)
  refine ⟨pool, lists, varintBytes seed ++ varintBytes feeHint ++ ea.bytes ++ er.bytes, hpool, ?_,
    ha, hr⟩
  rw [selectionSender, hnew, ok_bind, hlists, ok_bind]
  simp only [hea, her, ok_bind]
  rfl

end Sender

/-! ## What a list hits -/

/-- A prefix in the list is a prefix of the short id of the entry. -/
def Hit (list : TxbitsSet) (e : BitcoinTxid × Tx) : Prop :=
  ∃ i, ∃ v ∈ list.strings i, (txid48 H seed e.1).matches v = true

variable {H} {seed}

/-- A list of the sender hits no other transaction of the sender. -/
theorem Listed.hit_iff {pool : IbltPool} {P : BitcoinTxid × Tx → Prop} {mempool : Txmap}
    {list : TxbitsSet} (h : Listed H seed pool P mempool.entries list)
    (hpool : pool.Holds H seed mempool.entries) (hids : mempool.DistinctIds H seed)
    {e : BitcoinTxid × Tx} (he : e ∈ mempool.entries) : Hit H seed list e ↔ P e := by
  constructor
  · rintro ⟨i, v, hv, hm⟩
    obtain ⟨-, e', he', hP, hbits⟩ := (h i v).mp hv
    obtain ⟨v', hv', -, -, huniq⟩ := hpool.uniqueBitid he'
    rw [hbits] at hv'
    cases hv'
    rwa [List.inj_on_of_nodup_map hids he he' ((huniq e he).mp hm)]
  · intro hP
    obtain ⟨v, hbits, -, -, huniq⟩ := hpool.uniqueBitid he
    exact ⟨v.length, v, (h _ v).mpr ⟨rfl, e, he, hP, hbits⟩, (huniq e he).mpr rfl⟩

/-- The transactions that a list hits, in the order of the loop. -/
def hitTxs (pool : IbltPool) (list : TxbitsSet) : List Tx :=
  list.toList.flatMap fun s => s.toList.flatMap pool.getTxs

theorem forHits_eq (pool : IbltPool) (list : TxbitsSet) (body : Txmap → Tx → Txmap) (m : Txmap) :
    forHits pool list body m = (hitTxs pool list).foldl body m := by
  simp only [forHits, hitTxs, List.foldl_flatMap]

theorem mem_hitTxs {pool : IbltPool} {list : TxbitsSet} {t : Tx} :
    t ∈ hitTxs pool list ↔ ∃ i, ∃ v ∈ list.strings i, t ∈ pool.getTxs v := by
  simp only [hitTxs, List.mem_flatMap, Vector.mem_toList_iff, Vector.mem_iff_getElem]
  constructor
  · rintro ⟨s, ⟨i, hi, rfl⟩, v, hv, ht⟩
    exact ⟨i, v, by rwa [list.strings_of_lt hi], ht⟩
  · rintro ⟨i, v, hv, ht⟩
    by_cases hi : i < 49
    · rw [list.strings_of_lt hi] at hv
      exact ⟨_, ⟨i, hi, rfl⟩, v, hv, ht⟩
    · simp [TxbitsSet.strings, hi] at hv

/-- The first loop takes the entries that meet the fee. -/
theorem meetingFee_ok (mempool : Txmap) (feeHint : U64) :
    (∀ e ∈ (meetingFee feeHint mempool).entries, e ∈ mempool.entries) ∧
      ∀ e ∈ mempool.entries,
        e.1 ∈ (meetingFee feeHint mempool).keys ↔ ¬ e.2.satoshiPerByte < feeHint := by
  have heq : meetingFee feeHint mempool =
      (mempool.entries.filter fun p => feeHint ≤ p.2.satoshiPerByte).foldl
        (fun m p => (m.insert p.1 p.2).1) UnorderedMap.empty := by
    simp only [meetingFee, List.foldl_filter, decide_eq_true_eq]
  rw [heq]
  refine ⟨UnorderedMap.foldl_insert_sub (by simp [UnorderedMap.empty]) fun p hp =>
    (List.mem_filter.mp hp).1, fun e he => ?_⟩
  rw [UnorderedMap.mem_keys_foldl_insert, List.mem_map, BitVec.not_lt]
  constructor
  · rintro (h | ⟨e', he', heq⟩)
    · simp [UnorderedMap.empty, UnorderedMap.keys] at h
    · obtain ⟨he', hfee⟩ := List.mem_filter.mp he'
      rw [List.inj_on_of_nodup_map mempool.nodup he' he heq] at hfee
      exact of_decide_eq_true hfee
  · exact fun hfee => Or.inr ⟨e, List.mem_filter.mpr ⟨he, decide_eq_true hfee⟩, rfl⟩

section Receiver

variable {pool : IbltPool} {mempool : Txmap} (hpool : pool.Holds H seed mempool.entries)
  (hkeyed : mempool.Keyed)

include hpool hkeyed

/-- The receiver finds the entries of its own mempool that the list hits. -/
theorem mem_hitTxs_iff {list : TxbitsSet} {t : Tx} :
    t ∈ hitTxs pool list ↔ (t.txid, t) ∈ mempool.entries ∧ Hit H seed list (t.txid, t) := by
  rw [mem_hitTxs]
  constructor
  · rintro ⟨i, v, hv, ht⟩
    obtain ⟨e, he, hm, rfl⟩ := hpool.mem_getTxs.mp ht
    have hkey : (e.2.txid, e.2) = e := Prod.ext (hkeyed e he) rfl
    rw [hkey]
    exact ⟨he, i, v, hv, hm⟩
  · rintro ⟨he, i, v, hv, hm⟩
    exact ⟨i, v, hv, hpool.mem_getTxs.mpr ⟨_, he, hm, rfl⟩⟩

theorem mem_txids_hitTxs_iff {list : TxbitsSet} {e : BitcoinTxid × Tx} (he : e ∈ mempool.entries) :
    e.1 ∈ (hitTxs pool list).map Tx.txid ↔ Hit H seed list e := by
  have hkey : (e.2.txid, e.2) = e := Prod.ext (hkeyed e he) rfl
  rw [List.mem_map]
  constructor
  · rintro ⟨t, ht, heq⟩
    obtain ⟨ht, hhit⟩ := (mem_hitTxs_iff hpool hkeyed).mp ht
    rw [heq] at ht hhit
    exact hhit
  · intro hhit
    refine ⟨e.2, (mem_hitTxs_iff hpool hkeyed).mpr ?_, hkeyed e he⟩
    rw [hkey]
    exact ⟨he, hhit⟩

end Receiver

/-- **The receiver.** It keeps what meets the fee or is hit by the first list, unless the second
list hits it. -/
theorem selectionReceiver_ok (hseed : seed ≠ 0) (feeHint : U64) {mempool : Txmap}
    (hids : mempool.DistinctIds H seed) (hkeyed : mempool.Keyed) (lists : SelectionLists) :
    ∃ newmempool, selectionReceiver H seed feeHint lists mempool = .ok newmempool ∧
      (∀ e ∈ newmempool.entries, e ∈ mempool.entries) ∧
      ∀ e ∈ mempool.entries, e.1 ∈ newmempool.keys ↔
        (¬ e.2.satoshiPerByte < feeHint ∨ Hit H seed lists.added e) ∧
          ¬ Hit H seed lists.removed e := by
  obtain ⟨pool, hnew, hpool⟩ := IbltPool.new_ok hseed hids
  obtain ⟨hsub, hfee⟩ := meetingFee_ok mempool feeHint
  refine ⟨_, by rw [selectionReceiver, hnew, ok_bind]; rfl, ?_, fun e he => ?_⟩
  · rw [forHits_eq, forHits_eq]
    exact UnorderedMap.foldl_erase_sub (UnorderedMap.foldl_insert_sub hsub fun t ht =>
      ((mem_hitTxs_iff hpool hkeyed).mp ht).1)
  · rw [forHits_eq, forHits_eq, UnorderedMap.mem_keys_foldl_erase,
      UnorderedMap.mem_keys_foldl_insert, hfee e he, mem_txids_hitTxs_iff hpool hkeyed he,
      mem_txids_hitTxs_iff hpool hkeyed he]

/-- **The selection is exact on what the sender knows.** Whatever the fee, a transaction of the
sender's mempool is in the receiver's selection if and only if it is both in the receiver's
mempool and in the block; when the receiver knows nothing else, the selection is what the mempool
and the block have in common. -/
theorem selection_exact (hseed : seed ≠ 0) (feeHint : U64) (block M₁ M₂ : Txmap)
    (hids₁ : M₁.DistinctIds H seed) (hids₂ : M₂.DistinctIds H seed) (hkeyed : M₂.Keyed) :
    ∃ lists bytes newmempool,
      selectionSender H seed feeHint block M₁ = .ok (lists, bytes) ∧
      selectionReceiver H seed feeHint lists M₂ = .ok newmempool ∧
      (∀ e ∈ M₁.entries, e ∈ newmempool.entries ↔ e ∈ M₂.entries ∧ e.1 ∈ block.keys) ∧
      ((∀ e ∈ M₂.entries, e ∈ M₁.entries) →
        ∀ e, e ∈ newmempool.entries ↔ e ∈ M₂.entries ∧ e.1 ∈ block.keys) := by
  obtain ⟨pool, lists, bytes, hpool, hsend, hadded, hremoved⟩ :=
    selectionSender_ok hseed feeHint block hids₁
  obtain ⟨newmempool, hrecv, hsub, hkeys⟩ := selectionReceiver_ok hseed feeHint hids₂ hkeyed lists
  have hknown : ∀ e ∈ M₁.entries,
      e ∈ newmempool.entries ↔ e ∈ M₂.entries ∧ e.1 ∈ block.keys := by
    intro e he
    by_cases he₂ : e ∈ M₂.entries
    · have hmem : e ∈ newmempool.entries ↔ e.1 ∈ newmempool.keys := by
        refine ⟨fun h => List.mem_map.mpr ⟨e, h, rfl⟩, fun h => ?_⟩
        obtain ⟨t, ht⟩ := UnorderedMap.mem_keys_iff.mp h
        rwa [UnorderedMap.value_unique (hsub _ ht) he₂] at ht
      rw [hmem, hkeys e he₂, hadded.hit_iff hpool hids₁ he, hremoved.hit_iff hpool hids₁ he,
        Exception, Exception]
      simp only [he₂, true_and, if_true, if_false, Bool.false_eq_true]
      tauto
    · exact iff_of_false (fun h => he₂ (hsub e h)) fun h => he₂ h.1
  refine ⟨lists, bytes, newmempool, hsend, hrecv, hknown, fun h₂₁ e => ⟨fun h => ?_, fun h => ?_⟩⟩
  · exact (hknown e (h₂₁ e (hsub e h))).mp h
  · exact (hknown e (h₂₁ e h.1)).mpr h

/-- Of two transactions that the receiver has, one is in the block. -/
theorem selection_exact_allTxs : ∃ lists bytes newmempool,
    selectionSender headHashes 1 0 leftTxs allTxs = .ok (lists, bytes) ∧
      selectionReceiver headHashes 1 0 lists rightTxs = .ok newmempool ∧
      headEntry (1, 0) ∈ newmempool.entries ∧ headEntry (3, 0) ∉ newmempool.entries := by
  obtain ⟨lists, bytes, newmempool, hsend, hrecv, -, hall⟩ := selection_exact (H := headHashes)
    (show (1 : U64) ≠ 0 by decide) 0 leftTxs allTxs rightTxs (headTxs_distinctIds _ 1)
    (headTxs_distinctIds _ 1) (headTxs_keyed _)
  have hsub : ∀ e ∈ rightTxs.entries, e ∈ allTxs.entries :=
    fun e he => List.mem_cons_of_mem _ he
  refine ⟨lists, bytes, newmempool, hsend, hrecv, (hall hsub _).mpr ?_, fun h => ?_⟩
  · exact ⟨List.mem_cons_self, headTxid_mem_keys.mpr (by decide)⟩
  · exact absurd (headTxid_mem_keys.mp ((hall hsub _).mp h).2) (by decide)

end BitcoinIblt
