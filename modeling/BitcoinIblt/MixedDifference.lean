import BitcoinIblt.Assembly
import BitcoinIblt.Exactness

/-!
# Differences with slices of both sides

In general a receiver both misses slices of the block and has transactions that are too many. A
bucket in which the two meet counts their difference, and a count of one or minus one need not mean
a single slice: two slices of theirs and one of ours look like one of theirs. If no bucket is hit by
both sides, other than once by each (`Unmixed`), every single slice is a real one to the end, and
the answer of `recover_block` is exact (`recoverBlock_unmixed`): the missing slices and the
transactions too many, taken together as the items to be peeled, can be put in an order in which
each is alone in some bucket, and no missing transaction wraps around.
-/

namespace BitcoinIblt

open SignedTable RawIblt Transition Peeling

variable {H : Hashes} {size : ℕ} {seed : U64}

/-! ## Items of both kinds -/

/-- What one turn of the peeling loop takes out: a slice of theirs or a transaction of ours. -/
abbrev PeelItem := TxSlice ⊕ (BitcoinTxid × Tx)

/-- How often an item hits a bucket. -/
def itemHits (H : Hashes) (size : ℕ) (seed : U64) : PeelItem → Fin size → ℕ
  | .inl s, c => hits H s c
  | .inr e, c => txHits H size seed e c

def itemsOf (missing : List TxSlice) (excess : List (BitcoinTxid × Tx)) : List PeelItem :=
  missing.map .inl ++ excess.map .inr

theorem load_itemsOf (missing : List TxSlice) (excess : List (BitcoinTxid × Tx)) (c : Fin size) :
    load (itemHits H size seed) (itemsOf missing excess) c =
      load (hits H) missing c + load (txHits H size seed) excess c := by
  unfold itemsOf
  rw [load_append, load, load, List.map_map, List.map_map]
  rfl

theorem itemsOf_perm {missing missing' : List TxSlice} {excess excess' : List (BitcoinTxid × Tx)}
    (hm : missing.Perm missing') (he : excess.Perm excess') :
    (itemsOf missing excess).Perm (itemsOf missing' excess') :=
  (hm.map _).append (he.map _)

/-- No bucket is hit by both sides, other than once by each, and no count wraps around. -/
structure Unmixed (H : Hashes) (size : ℕ) (seed : U64) (missing : List TxSlice)
    (excess : List (BitcoinTxid × Tx)) : Prop where
  meet : ∀ c : Fin size, load (hits H) missing c = 0 ∨ load (txHits H size seed) excess c = 0 ∨
    load (hits H) missing c = 1 ∧ load (txHits H size seed) excess c = 1
  missing_lt : ∀ c : Fin size, load (hits H) missing c < 65535
  excess_lt : ∀ c : Fin size, load (txHits H size seed) excess c < 65535

/-- Taking items away mixes nothing. -/
theorem Unmixed.subperm {missing missing' : List TxSlice} {excess excess' : List (BitcoinTxid × Tx)}
    (h : Unmixed H size seed missing excess) (hm : missing'.Subperm missing)
    (he : excess'.Subperm excess) : Unmixed H size seed missing' excess' := by
  have hle : ∀ c : Fin size, load (hits H) missing' c ≤ load (hits H) missing c :=
    load_le_of_subperm hm
  have hle' : ∀ c : Fin size, load (txHits H size seed) excess' c ≤
      load (txHits H size seed) excess c := load_le_of_subperm he
  refine ⟨fun c => ?_, fun c => (hle c).trans_lt (h.missing_lt c),
    fun c => (hle' c).trans_lt (h.excess_lt c)⟩
  have hc := h.meet c
  have h₁ := hle c
  have h₂ := hle' c
  omega

/-! ## What a count says -/

theorem bucketType_natCast {m : ℕ} (hm : m < 65535) :
    bucketType ((m : ℕ) : S16) = if m = 1 then .THEIRS else .NEITHER := by
  unfold bucketType
  rw [if_neg (natCast_ne_neg_one hm)]
  simp only [natCast_eq_one_iff hm]

theorem bucketType_neg_natCast {m : ℕ} (hm : m < 65535) :
    bucketType (-((m : ℕ) : S16)) = if m = 1 then .OURS else .NEITHER := by
  have hne : ¬ -((m : ℕ) : S16) = 1 := by
    rw [neg_eq_iff_eq_neg]
    exact natCast_ne_neg_one hm
  unfold bucketType
  simp only [neg_inj, natCast_eq_one_iff hm, if_neg hne]

/-! ## The loop -/

/-- A state of the peeling loop in which the slices of `missing` are still to be collected and the
transactions of `excess` still to be removed. At the start these were the slices of `lack`, and
`surplus`; what else is in the pool is `rest`. -/
structure Mixed (H : Hashes) (seed : U64) (lack surplus rest : List (BitcoinTxid × Tx))
    (missing : List TxSlice) (excess : List (BitcoinTxid × Tx)) (st : PeelState size) : Prop where
  inStep : Iblt.InStep H st.diff ∅
  table : st.diff.riblt.table =
    total (hits H) unit missing - total (hits H) unit (entrySlices H seed excess)
  slices : (st.slices.toList ++ missing).Perm (entrySlices H seed lack)
  pool : st.txByTxid48.entries.Perm ((excess ++ rest).map (poolEntry H seed))
  sub : excess.Subperm surplus
  peelable : Peelable (itemHits H size seed) (itemsOf missing excess) ↔
    Peelable (itemHits H size seed) (itemsOf (entrySlices H seed lack) surplus)

section Loop

variable {lack surplus rest : List (BitcoinTxid × Tx)} {missing : List TxSlice}
  {excess : List (BitcoinTxid × Tx)} {st : PeelState size}

theorem Mixed.missing_subperm (h : Mixed H seed lack surplus rest missing excess st) :
    missing.Subperm (entrySlices H seed lack) :=
  (List.sublist_append_right _ _).subperm.trans h.slices.subperm

variable (hmix : Unmixed H size seed (entrySlices H seed lack) surplus)

include hmix

theorem Mixed.unmixed (h : Mixed H seed lack surplus rest missing excess st) :
    Unmixed H size seed missing excess :=
  hmix.subperm h.missing_subperm h.sub

/-- A bucket holds a single slice exactly if one item hits it once, and its type says which. -/
theorem Mixed.typeAt (h : Mixed H seed lack surplus rest missing excess st) (n : Fin size) :
    (st.diff.typeAt n = .NEITHER ∧
      load (hits H) missing n + load (txHits H size seed) excess n ≠ 1) ∨
    (st.diff.typeAt n = .OURS ∧
      load (hits H) missing n = 0 ∧ load (txHits H size seed) excess n = 1) ∨
    (st.diff.typeAt n = .THEIRS ∧
      load (hits H) missing n = 1 ∧ load (txHits H size seed) excess n = 0) := by
  have hun := h.unmixed hmix
  have hcount : st.diff.riblt.counts.get n = ((load (hits H) missing n : ℕ) : S16) -
      ((load (txHits H size seed) excess n : ℕ) : S16) := by
    rw [← load_entrySlices, ← fst_total, ← fst_total]
    exact congrArg Prod.fst (congrFun h.table n)
  have hlt := hun.missing_lt n
  have hlt' := hun.excess_lt n
  unfold Iblt.typeAt
  rw [hcount]
  rcases hun.meet n with hp | hq | ⟨hp, hq⟩
  · rw [hp, Nat.cast_zero, zero_sub, bucketType_neg_natCast hlt']
    split_ifs with hone
    · exact Or.inr (Or.inl ⟨rfl, rfl, hone⟩)
    · exact Or.inl ⟨rfl, by omega⟩
  · rw [hq, Nat.cast_zero, sub_zero, bucketType_natCast hlt]
    split_ifs with hone
    · exact Or.inr (Or.inr ⟨rfl, hone, rfl⟩)
    · exact Or.inl ⟨rfl, by omega⟩
  · rw [hp, hq, sub_self]
    exact Or.inl ⟨rfl, by omega⟩

omit hmix in
/-- What a bucket holds that only slices of ours hit, and once. -/
theorem Mixed.single_ours (h : Mixed H seed lack surplus rest missing excess st) {n : Fin size}
    (hzero : load (hits H) missing n = 0) (hone : load (txHits H size seed) excess n = 1) :
    ∃ e ∈ excess, st.diff.riblt.buckets.get n ∈ txSlices H seed e ∧
      Alone (itemHits H size seed) (itemsOf missing excess) (.inr e) := by
  obtain ⟨s, hs, hpos, hval⟩ : ∃ s ∈ entrySlices H seed excess, 0 < hits H s n ∧
      total (hits H) unit (entrySlices H seed excess) n = unit s :=
    total_apply_of_load_eq_one ((load_entrySlices seed excess n).trans hone)
  have hnone : total (hits H) unit missing n = 0 := total_apply_of_load_eq_zero hzero
  have hbucket : st.diff.riblt.buckets.get n = s := by
    have hcell := congrArg Prod.snd (congrFun h.table n)
    rw [Pi.sub_apply, hval, hnone, zero_sub] at hcell
    exact hcell
  obtain ⟨e, he, hse⟩ := List.mem_flatMap.mp hs
  rw [hbucket]
  refine ⟨e, he, hse, n, hpos.trans_le (hits_le_load hse n), ?_⟩
  rw [load_itemsOf, hzero, hone]

omit hmix in
/-- What a bucket holds that only slices of theirs hit, and once. -/
theorem Mixed.single_theirs (h : Mixed H seed lack surplus rest missing excess st) {n : Fin size}
    (hone : load (hits H) missing n = 1) (hzero : load (txHits H size seed) excess n = 0) :
    st.diff.riblt.buckets.get n ∈ missing ∧ Alone (itemHits H size seed)
      (itemsOf missing excess) (.inl (st.diff.riblt.buckets.get n)) := by
  obtain ⟨s, hs, hpos, hval⟩ : ∃ s ∈ missing, 0 < hits H s n ∧
      total (hits H) unit missing n = unit s := total_apply_of_load_eq_one hone
  have hnone : total (hits H) unit (entrySlices H seed excess) n = 0 :=
    total_apply_of_load_eq_zero ((load_entrySlices seed excess n).trans hzero)
  have hbucket : st.diff.riblt.buckets.get n = s := by
    have hcell := congrArg Prod.snd (congrFun h.table n)
    rw [Pi.sub_apply, hval, hnone, sub_zero] at hcell
    exact hcell
  rw [hbucket]
  refine ⟨hs, n, hpos, ?_⟩
  rw [load_itemsOf, hzero, hone]

section Turns

variable (hsize : 0 < size) (hsl : ∀ e ∈ surplus, Sliceable e.2.btx)
  (hids : (lack.map fun e => txid48 H seed e.1).Nodup)

omit hmix in
include hsize hsl in
/-- A single slice of ours takes its whole transaction with it. -/
theorem Mixed.turn_ours (h : Mixed H seed lack surplus rest missing excess st) {s : TxSlice}
    {e : BitcoinTxid × Tx} (he : e ∈ excess) (hse : s ∈ txSlices H seed e)
    (halone : Alone (itemHits H size seed) (itemsOf missing excess) (.inr e)) :
    ∃ st' excess', peelBody H st .OURS s = .ok (.again st') ∧
      Mixed H seed lack surplus rest missing excess' st' := by
  have hid : s.getTxid48 = txid48 H seed e.1 := txidbits_of_mem _ hse
  obtain ⟨l₁, l₂, rfl⟩ := List.append_of_mem he
  have hrem : (l₁ ++ e :: l₂).Perm (e :: (l₁ ++ l₂)) := List.perm_middle
  have hpool : st.txByTxid48.entries.Perm
      (poolEntry H seed e :: (l₁ ++ l₂ ++ rest).map (poolEntry H seed)) :=
    h.pool.trans ((hrem.append_right _).map _)
  have hfind : st.txByTxid48.find s.getTxid48 = some e.2 := by
    rw [UnorderedMap.find_eq_some_iff, hid]
    exact hpool.mem_iff.mpr List.mem_cons_self
  have heM : Sliceable e.2.btx := hsl e (h.sub.subset he)
  obtain ⟨diff, hd, hin, htable, -⟩ := removeOurTx_turn hsize h.inStep heM hfind
  have hmem := UnorderedMap.find_eq_some_iff.mp hfind
  have herase : (st.txByTxid48.erase s.getTxid48).2 = true :=
    UnorderedMap.erase_snd.mpr ⟨e.2, hmem⟩
  refine ⟨⟨diff, (st.txByTxid48.erase s.getTxid48).1, st.slices⟩, l₁ ++ l₂, ?_, hin, ?_,
    h.slices, ?_, ?_, ?_⟩
  · unfold peelBody
    simp only [hfind, hd, ok_bind, herase, if_true]
    rfl
  · have htotal : total (hits H) unit (entrySlices H seed (l₁ ++ e :: l₂)) =
        (total (hits H) unit (txSlices H seed e) +
          total (hits H) unit (entrySlices H seed (l₁ ++ l₂)) : Fin size → Cell) := by
      rw [entrySlices, total_perm _ _ (hrem.flatMap_right _), List.flatMap_cons, total_append]
      rfl
    rw [htable, h.table, htotal, hid]
    show _ - (total (hits H) unit (slicesOf H e.2.btx (txid48 H seed e.1)) + _) + _ = _
    abel
  · refine List.Perm.cons_inv (((UnorderedMap.erase_perm hmem).symm.trans hpool).trans ?_)
    rw [hid]
    exact List.Perm.refl _
  · exact (List.sublist_cons_self e _).subperm.trans (hrem.symm.subperm.trans h.sub)
  · have hitems : (itemsOf missing (l₁ ++ e :: l₂)).Perm
        (.inr e :: itemsOf missing (l₁ ++ l₂)) :=
      (itemsOf_perm (List.Perm.refl _) hrem).trans List.perm_middle
    exact (peelable_iff_of_alone halone hitems).symm.trans h.peelable

omit hmix in
include hsize hids in
/-- A single slice of theirs is collected. -/
theorem Mixed.turn_theirs (h : Mixed H seed lack surplus rest missing excess st) {s : TxSlice}
    (hs : s ∈ missing)
    (halone : Alone (itemHits H size seed) (itemsOf missing excess) (.inl s)) :
    ∃ st' missing', peelBody H st .THEIRS s = .ok (.again st') ∧
      Mixed H seed lack surplus rest missing' excess st' := by
  obtain ⟨l₁, l₂, rfl⟩ := List.append_of_mem hs
  have hrem : (l₁ ++ s :: l₂).Perm (s :: (l₁ ++ l₂)) := List.perm_middle
  have hall : (s :: (st.slices.toList ++ (l₁ ++ l₂))).Perm (entrySlices H seed lack) :=
    List.perm_middle.symm.trans ((hrem.symm.append_left _).trans h.slices)
  have hkeys : ((entrySlices H seed lack).map TxSlice.key).Nodup :=
    entrySlices_key_nodup hids
  -- no slice with its key has been collected
  have hnew : (st.slices.insert s).2 = true := by
    rw [OrdSet.insert_snd]
    intro b hb hE
    have hnodup := (hall.map TxSlice.key).nodup_iff.mpr hkeys
    rw [List.map_cons, List.nodup_cons] at hnodup
    apply hnodup.1
    refine List.mem_map.mpr ⟨b, List.mem_append_left _ hb, ?_⟩
    exact (TxSlice.key_eq_iff.mpr (TxSlice.equiv_iff.mp hE)).symm
  obtain ⟨diff, hd, hin, htable⟩ := removeTheirSlice_turn hsize (s := s) h.inStep
  refine ⟨⟨diff, st.txByTxid48, (st.slices.insert s).1⟩, l₁ ++ l₂, ?_, hin, ?_, ?_, h.pool,
    h.sub, ?_⟩
  · unfold peelBody
    simp only [hnew, if_true, hd, ok_bind]
    rfl
  · rw [htable, h.table, total_perm _ _ hrem, total_cons]
    abel
  · exact ((OrdSet.insert_perm hnew).append_right _).trans hall
  · have hitems : (itemsOf (l₁ ++ s :: l₂) excess).Perm (.inl s :: itemsOf (l₁ ++ l₂) excess) :=
      itemsOf_perm hrem (List.Perm.refl _)
    exact (peelable_iff_of_alone halone hitems).symm.trans h.peelable

include hsize hsl hids in
/-- Picking a single slice, whichever, takes a real item out. -/
theorem Mixed.turn (h : Mixed H seed lack surplus rest missing excess st) {n : Fin size}
    (hn : st.diff.typeAt n ≠ .NEITHER) :
    ∃ st' missing' excess',
      peelBody H st (st.diff.typeAt n) (st.diff.riblt.buckets.get n) = .ok (.again st') ∧
      Mixed H seed lack surplus rest missing' excess' st' := by
  rcases h.typeAt hmix n with ⟨htype, -⟩ | ⟨htype, hzero, hone⟩ | ⟨htype, hone, hzero⟩
  · exact absurd htype hn
  · obtain ⟨e, he, hse, halone⟩ := h.single_ours hzero hone
    obtain ⟨st', excess', hbody, hinv⟩ := h.turn_ours hsize hsl he hse halone
    exact ⟨st', missing, excess', htype ▸ hbody, hinv⟩
  · obtain ⟨hs, halone⟩ := h.single_theirs hone hzero
    obtain ⟨st', missing', hbody, hinv⟩ := h.turn_theirs hsize hids hs halone
    exact ⟨st', missing', excess, htype ▸ hbody, hinv⟩

end Turns

/-- When no single slice is left, what is left is peelable only if it is nothing. -/
theorem Mixed.stuck (h : Mixed H seed lack surplus rest missing excess st)
    (hstuck : ∀ n, st.diff.typeAt n = .NEITHER) :
    Peelable (itemHits H size seed) (itemsOf (entrySlices H seed lack) surplus) ↔
      missing = [] ∧ excess = [] := by
  have halone : ∀ i ∈ itemsOf missing excess,
      ¬ Alone (itemHits H size seed) (itemsOf missing excess) i := by
    rintro i - ⟨c, -, hone⟩
    rw [load_itemsOf] at hone
    rcases h.typeAt hmix c with ⟨-, hne⟩ | ⟨htype, -⟩ | ⟨htype, -⟩
    · exact hne hone
    · rw [hstuck c] at htype
      cases htype
    · rw [hstuck c] at htype
      cases htype
  rw [← h.peelable, peelable_iff_of_stuck halone]
  simp [itemsOf]

/-- The difference is empty only if nothing is left: what is left of the two sides cannot cancel
out, as their ids differ. -/
theorem Mixed.empty_iff (h : Mixed H seed lack surplus rest missing excess st) (hsize : 0 < size)
    (hsl : ∀ e ∈ surplus, Sliceable e.2.btx)
    (hcross : ∀ e ∈ surplus, ∀ f ∈ lack, txid48 H seed e.1 ≠ txid48 H seed f.1) :
    st.diff.empty = true ↔ missing = [] ∧ excess = [] := by
  rw [empty_iff_table, h.table]
  constructor
  · intro hzero
    have hun := h.unmixed hmix
    have heq : (total (hits H) unit missing : Fin size → Cell) =
        total (hits H) unit (entrySlices H seed excess) := sub_eq_zero.mp hzero
    have hload : ∀ c : Fin size, load (hits H) missing c = load (txHits H size seed) excess c := by
      intro c
      have hc := congrArg Prod.fst (congrFun heq c)
      rw [fst_total, fst_total, load_entrySlices] at hc
      have hlt := hun.missing_lt c
      have hlt' := hun.excess_lt c
      exact (natCast_eq_iff (by omega) (by omega)).mp hc
    have hmissing : missing = [] := by
      refine List.eq_nil_iff_forall_not_mem.mpr fun s hs => ?_
      obtain ⟨c, hc⟩ := exists_hit (H := H) hsize s
      have hpos : 0 < load (hits H) missing c := hc.trans_le (hits_le_load hs c)
      have hone : load (hits H) missing c = 1 ∧ load (txHits H size seed) excess c = 1 := by
        have hmeet := hun.meet c
        have hc' := hload c
        omega
      -- the slice of each side in the bucket is the same
      obtain ⟨s₁, hs₁, -, hval₁⟩ : ∃ s ∈ missing, 0 < hits H s c ∧
          total (hits H) unit missing c = unit s := total_apply_of_load_eq_one hone.1
      obtain ⟨s₂, hs₂, -, hval₂⟩ : ∃ s ∈ entrySlices H seed excess, 0 < hits H s c ∧
          total (hits H) unit (entrySlices H seed excess) c = unit s :=
        total_apply_of_load_eq_one ((load_entrySlices seed excess c).trans hone.2)
      have hsame : s₁ = s₂ := by
        have hcell := congrFun heq c
        rw [hval₁, hval₂] at hcell
        exact congrArg Prod.snd hcell
      obtain ⟨f, hf, hsf⟩ := List.mem_flatMap.mp (h.missing_subperm.subset hs₁)
      obtain ⟨e, he, hse⟩ := List.mem_flatMap.mp hs₂
      apply hcross e (h.sub.subset he) f hf
      rw [← txidbits_of_mem _ hse, ← txidbits_of_mem _ hsf, hsame]
    refine ⟨hmissing, List.eq_nil_iff_forall_not_mem.mpr fun e he => ?_⟩
    have hsl : Sliceable e.2.btx := hsl e (h.sub.subset he)
    obtain ⟨s, tail, hslices⟩ := List.exists_cons_of_ne_nil
      (slicesOf_ne_nil (H := H) (txid48 H seed e.1) hsl)
    obtain ⟨c, hc⟩ := exists_hit (H := H) hsize s
    have hs : s ∈ txSlices H seed e := by
      unfold txSlices
      rw [hslices]
      exact List.mem_cons_self
    have hle : hits H s c ≤ txHits H size seed e c := hits_le_load hs c
    have hle' : txHits H size seed e c ≤ load (txHits H size seed) excess c := hits_le_load he c
    have hc' := hload c
    rw [hmissing, load_nil] at hc'
    omega
  · rintro ⟨rfl, rfl⟩
    show total (hits H) unit [] - total (hits H) unit [] = 0
    rw [total_nil, sub_self]

/-- The loop ends. Either it has removed everything, or what was there cannot be peeled. -/
theorem Mixed.ends (h : Mixed H seed lack surplus rest missing excess st) (hsize : 0 < size)
    (hsl : ∀ e ∈ surplus, Sliceable e.2.btx)
    (hids : (lack.map fun e => txid48 H seed e.1).Nodup)
    (hcross : ∀ e ∈ surplus, ∀ f ∈ lack, txid48 H seed e.1 ≠ txid48 H seed f.1) :
    ∃ st', peel H st = .ok (some st') ∧
      ((st'.diff.empty = true ∧ st'.slices.toList.Perm (entrySlices H seed lack) ∧
          st'.txByTxid48.entries.Perm (rest.map (poolEntry H seed)) ∧
          Peelable (itemHits H size seed) (itemsOf (entrySlices H seed lack) surplus)) ∨
        (¬ st'.diff.empty = true ∧
          ¬ Peelable (itemHits H size seed) (itemsOf (entrySlices H seed lack) surplus))) := by
  have hturn : ∀ st : PeelState size,
      (∃ missing excess, Mixed H seed lack surplus rest missing excess st) →
      ∀ n, st.diff.typeAt n ≠ .NEITHER →
      ∃ st', peelBody H st (st.diff.typeAt n) (st.diff.riblt.buckets.get n) = .ok (.again st') ∧
        ∃ missing excess, Mixed H seed lack surplus rest missing excess st' := by
    rintro st ⟨missing, excess, hinv⟩ n hne
    obtain ⟨st', missing', excess', hbody, hinv'⟩ := hinv.turn hmix hsize hsl hids hne
    exact ⟨st', hbody, missing', excess', hinv'⟩
  obtain ⟨st', hpeel, ⟨missing, excess, hinv⟩, hstuck⟩ :=
    peel_ends_stuck (fun _ ⟨_, _, hinv⟩ => hinv.inStep) hturn ⟨_, _, h⟩
  have hempty := hinv.empty_iff hmix hsize hsl hcross
  have hpeelable := hinv.stuck hmix hstuck
  refine ⟨st', hpeel, ?_⟩
  by_cases hnil : missing = [] ∧ excess = []
  · refine Or.inl ⟨hempty.mpr hnil, ?_, ?_, hpeelable.mpr hnil⟩
    · obtain ⟨rfl, -⟩ := hnil
      simpa using hinv.slices
    · obtain ⟨-, rfl⟩ := hnil
      exact hinv.pool
  · exact Or.inr ⟨fun h => hnil (hempty.mp h), fun h => hnil (hpeelable.mp h)⟩

omit hmix

end Loop

/-! ## What follows the loop -/

section Finish

variable {M B : Txmap} {st : PeelState size}


/-- The transactions of a list of entries with their short ids. -/
def withIds (H : Hashes) (seed : U64) (l : List (BitcoinTxid × Tx)) : List (BitcoinTx × Txid48) :=
  l.map fun e => (e.2.btx, txid48 H seed e.1)

section WithIds

variable {l : List (BitcoinTxid × Tx)}

theorem withIds_nodup (h : (l.map fun e => txid48 H seed e.1).Nodup) :
    ((withIds H seed l).map Prod.snd).Nodup := by
  unfold withIds
  rwa [List.map_map]

theorem withIds_slices
    (h : ∀ e ∈ l, Sliceable e.2.btx ∧ (txSlices H seed e).length ≤ 0xffff) :
    ∀ p ∈ withIds H seed l, Sliceable p.1 ∧ (slicesOf H p.1 p.2).length ≤ 0xffff := by
  unfold withIds
  rwa [List.forall_mem_map]

theorem mem_iff_withIds {slices : OrdSet TxSlice.lt}
    (h : slices.toList.Perm (entrySlices H seed l)) (s : TxSlice) :
    s ∈ slices ↔ ∃ p ∈ withIds H seed l, s ∈ slicesOf H p.1 p.2 := by
  rw [OrdSet.mem_def, h.mem_iff, entrySlices, List.mem_flatMap]
  unfold withIds
  simp only [List.mem_map, exists_exists_and_eq_and]
  rfl

end WithIds

/-- The fragment ids of none of the transactions wrap around. -/
def NoneWraps (H : Hashes) (seed : U64) (l : List (BitcoinTxid × Tx)) : Prop :=
  ∀ e ∈ l, ¬ Wraps H (e.2.btx, txid48 H seed e.1)

theorem noneWraps_iff {l : List (BitcoinTxid × Tx)} :
    NoneWraps H seed l ↔ ∀ p ∈ withIds H seed l, ¬ Wraps H p := by
  unfold NoneWraps withIds
  rw [List.forall_mem_map]

/-- Every key of the map is the txid of the bytes that it maps to. -/
def Txmap.Hashed (H : Hashes) (m : Txmap) : Prop := ∀ e ∈ m.entries, e.2.btx.txid H = e.1

/-- When all slices of theirs are collected and all transactions too many removed, the program
recovers the block unless a transaction wraps. -/
theorem finish_complete {A : Allocator} (hA : A.Succeeds) (hagree : Txmap.Agree M B)
    (hkeyed : M.Keyed) (hhashed : B.Hashed H) (hsl : ∀ e ∈ B.sdiff M, Sliceable e.2.btx)
    (hlen : ∀ e ∈ B.sdiff M, (txSlices H seed e).length ≤ 0xffff) (hids : B.DistinctIds H seed)
    (hempty : st.diff.empty = true)
    (hslices : st.slices.toList.Perm (entrySlices H seed (B.sdiff M)))
    (hpool : st.txByTxid48.entries.Perm ((M.inter B).map (poolEntry H seed))) :
    ∃ b, finish H A st B = .ok b ∧ (b = true ↔ NoneWraps H seed (B.sdiff M)) := by
  have hdistinct : ((withIds H seed (B.sdiff M)).map Prod.snd).Nodup :=
    withIds_nodup ((List.filter_sublist.map _).nodup hids)
  have hT := withIds_slices fun e he => ⟨hsl e he, hlen e he⟩
  unfold finish
  rw [if_pos hempty, noneWraps_iff]
  rcases asmLoop_slices hA hdistinct hT (mem_iff_withIds hslices) with
    ⟨⟨p, hp, hwrap⟩, hr⟩ | ⟨hfine, tr, recovered, hr, hrec⟩
  · rw [hr]
    exact ⟨false, rfl, iff_of_false Bool.false_ne_true fun h => h p hp hwrap⟩
  · rw [hr]
    refine ⟨true, ?_, iff_of_true rfl hfine⟩
    have hrecovered : (recovered.map (BitcoinTx.txid H)).Perm ((B.sdiff M).map Prod.fst) := by
      refine (hrec.map _).trans (List.Perm.of_eq ?_)
      unfold withIds
      rw [List.map_map, List.map_map]
      exact List.map_congr_left fun e he => hhashed e (List.mem_of_mem_filter he)
    have hleft : (st.txByTxid48.entries.map fun p => p.2.txid).Perm
        ((B.inter M).map Prod.fst) := by
      refine (hpool.map _).trans (((hagree.inter_perm.map _).map _).trans ?_)
      rw [List.map_map]
      refine List.Perm.of_eq (List.map_congr_left fun e he => ?_)
      exact hkeyed e (hagree.symm.mem_inter.mp he).2
    have hblock : B.keys.Perm (reconstructed H recovered st.txByTxid48) := by
      refine ((B.sdiff_append_inter M).map Prod.fst).symm.trans ?_
      rw [List.map_append]
      exact (hrecovered.append hleft).symm
    have hcompare : compareBlock H recovered st.txByTxid48 B = true :=
      (compareBlock_iff H recovered st.txByTxid48 B).mpr hblock
    show Except.ok (compareBlock H recovered st.txByTxid48 B) = _
    rw [hcompare]

theorem finish_of_not_empty {A : Allocator} (h : ¬ st.diff.empty = true) :
    finish H A st B = .ok false := by
  unfold finish
  rw [if_neg h]
  rfl

/-- The loop removes what can be peeled, and what follows it answers. -/
theorem Mixed.answer {missing : List TxSlice} {excess : List (BitcoinTxid × Tx)}
    (h : Mixed H seed (B.sdiff M) (M.sdiff B) (M.inter B) missing excess st)
    (hmix : Unmixed H size seed (entrySlices H seed (B.sdiff M)) (M.sdiff B)) (hsize : 0 < size)
    {A : Allocator} (hA : A.Succeeds) (hagree : Txmap.Agree M B) (hkeyed : M.Keyed)
    (hhashed : B.Hashed H) (hM : ∀ e ∈ M.entries, Sliceable e.2.btx)
    (hB : ∀ e ∈ B.sdiff M, Sliceable e.2.btx)
    (hlen : ∀ e ∈ B.sdiff M, (txSlices H seed e).length ≤ 0xffff) (hids : B.DistinctIds H seed)
    (hcross : ∀ e ∈ M.sdiff B, ∀ f ∈ B.sdiff M, txid48 H seed e.1 ≠ txid48 H seed f.1) :
    ∃ b st', peel H st = .ok (some st') ∧ finish H A st' B = .ok b ∧
      (b = true ↔
        Peelable (itemHits H size seed) (itemsOf (entrySlices H seed (B.sdiff M)) (M.sdiff B)) ∧
          NoneWraps H seed (B.sdiff M)) := by
  obtain ⟨st', hpeel, ⟨hempty, hslices, hpool, hyes⟩ | ⟨hempty, hno⟩⟩ := h.ends hmix hsize
    (fun e he => hM e (List.mem_of_mem_filter he)) ((List.filter_sublist.map _).nodup hids) hcross
  · obtain ⟨b, hb, hiff⟩ :=
      finish_complete hA hagree hkeyed hhashed hB hlen hids hempty hslices hpool
    exact ⟨b, st', hpeel, hb, hiff.trans ⟨fun h => ⟨hyes, h⟩, fun h => h.2⟩⟩
  · exact ⟨false, st', hpeel, finish_of_not_empty hempty,
      iff_of_false Bool.false_ne_true fun h => hno h.1⟩

end Finish

/-- **Exactness without mixed buckets.** If no bucket is hit by slices of both sides, other than
once by each, `recover_block` returns `true` exactly if the missing slices and the transactions too
many can together be put in an order in which each has a hit alone in some bucket among itself and
the later ones, and the fragment ids of no missing transaction wrap around. -/
theorem recoverBlock_unmixed (H : Hashes) {A : Allocator} (hA : A.Succeeds) {size : ℕ}
    (hsize : 0 < size) (junk : BucketType → Bool) {seed : U64} (hseed : seed ≠ 0) (M B : Txmap)
    (hagree : Txmap.Agree M B) (hkeyed : M.Keyed) (hhashed : B.Hashed H)
    (hM : ∀ e ∈ M.entries, Sliceable e.2.btx) (hB : ∀ e ∈ B.entries, Sliceable e.2.btx)
    (hlen : ∀ e ∈ B.sdiff M, (txSlices H seed e).length ≤ 0xffff)
    (hidsM : M.DistinctIds H seed) (hidsB : B.DistinctIds H seed)
    (hcross : ∀ e ∈ M.sdiff B, ∀ f ∈ B.sdiff M, txid48 H seed e.1 ≠ txid48 H seed f.1)
    (hmix : Unmixed H size seed (entrySlices H seed (B.sdiff M)) (M.sdiff B)) :
    ∃ (theirs ours : RawIblt size) (b : Bool),
      ofTxmap H size seed B = .ok theirs ∧ ofTxmap H size seed M = .ok ours ∧
      recoverBlock H A junk theirs ours seed M B = .ok b ∧
      (b = true ↔
        Peelable (itemHits H size seed) (itemsOf (entrySlices H seed (B.sdiff M)) (M.sdiff B)) ∧
          NoneWraps H seed (B.sdiff M)) := by
  obtain ⟨theirs, ours, diff, htheirs, hours, hd, htable, hin⟩ :=
    new_ofTxmap (H := H) hsize hseed hagree.symm hB hM junk
  obtain ⟨pool, hp, hh⟩ := IbltPool.new_ok (H := H) hseed hidsM
  have hstart : Mixed H seed (B.sdiff M) (M.sdiff B) (M.inter B)
      (entrySlices H seed (B.sdiff M)) (M.sdiff B) ⟨diff, pool.txByTxid48, OrdSet.empty⟩ :=
    ⟨hin, htable, List.Perm.refl _, hh.byId.trans ((M.sdiff_append_inter B).symm.map _),
      List.Subperm.refl _, Iff.rfl⟩
  obtain ⟨b, st, hpeel, hfinish, hiff⟩ := hstart.answer hmix hsize hA hagree hkeyed hhashed hM
    (fun e he => hB e (List.mem_of_mem_filter he)) hlen hidsB hcross
  refine ⟨theirs, ours, b, htheirs, hours, ?_, hiff⟩
  rw [recoverBlock_of_peel H hd hp hpeel, hfinish]

/-- A short transaction does not wrap, if its version is not the highest. -/
theorem noneWraps_headEntry {v : U8} (seed : U64) (hv : v.toNat < 255) :
    NoneWraps headHashes seed [headEntry (v, 0)] := by
  refine List.forall_mem_singleton.mpr ?_
  have hbase : (txid48 headHashes seed (headTxid v)).fragBase headHashes =
      v.setWidth 16 <<< 8 ||| v.setWidth 16 := by
    have hbyte := txid48_headTxid seed v
    show (BitVec.ofNat 8 (txid48 headHashes seed (headTxid v)).toNat).setWidth 16 <<< 8 |||
      (BitVec.ofNat 8 (txid48 headHashes seed (headTxid v)).toNat).setWidth 16 = _
    rw [hbyte]
  have hlt : ∀ v : U8, v.toNat < 255 →
      (v.setWidth 16 <<< 8 ||| v.setWidth 16 : U16).toNat < 65535 := by decide
  have hv' := hlt v hv
  obtain ⟨s, hs, -⟩ := slicesOf_headBtx_zero headHashes v (txid48 headHashes seed (headTxid v))
  show ¬ 0x10000 < ((txid48 headHashes seed (headTxid v)).fragBase headHashes).toNat +
    (slicesOf headHashes (headBtx v 0) (txid48 headHashes seed (headTxid v))).length
  rw [hs, hbase, List.length_singleton]
  omega

/-- How often a short transaction hits one of six buckets. -/
theorem load_headEntry (v : U8) (c : Fin 6) :
    load (hits headHashes) (entrySlices headHashes 1 [headEntry (v, 0)]) c =
      ([0, 1, 2].map fun i => (i + 3 * v.toNat) % 6).count c.val := by
  obtain ⟨s, hs, hhits⟩ := entrySlices_headEntry 1 v
  rw [hs, load_cons, load_nil, hhits]
  rfl

/-- One that the mempool lacks and one that it has too many, in different buckets. -/
theorem headEntry_unmixed : Unmixed headHashes 6 1
    (entrySlices headHashes 1 [headEntry (0, 0)]) [headEntry (3, 0)] := by
  refine ⟨fun c => ?_, fun c => ?_, fun c => ?_⟩
  · rw [← load_entrySlices, load_headEntry, load_headEntry]
    revert c
    decide
  · rw [load_headEntry]
    revert c
    decide
  · rw [← load_entrySlices, load_headEntry]
    revert c
    decide

theorem headEntry_peelable : Peelable (itemHits headHashes 6 1)
    (itemsOf (entrySlices headHashes 1 [headEntry (0, 0)]) [headEntry (3, 0)]) := by
  have hlack := load_headEntry 0 0
  have hlack' := load_headEntry 0 3
  have hsurplus := load_headEntry 3 3
  obtain ⟨s, hs, -⟩ := entrySlices_headEntry 1 0
  rw [hs, load_cons, load_nil, add_zero] at hlack hlack'
  rw [load_entrySlices, load_cons, load_nil, add_zero] at hsurplus
  rw [hs]
  refine ⟨[.inr (headEntry (3, 0)), .inl s], List.Perm.swap _ _ _, ⟨3, ?_, ?_⟩, ⟨0, ?_, ?_⟩,
    trivial⟩
  · show 0 < txHits headHashes 6 1 (headEntry (3, 0)) 3
    rw [hsurplus]
    decide
  · show txHits headHashes 6 1 (headEntry (3, 0)) 3 + (hits headHashes s 3 + 0) = 1
    rw [hsurplus, hlack']
    rfl
  · show 0 < hits headHashes s 0
    rw [hlack]
    decide
  · show hits headHashes s 0 + 0 = 1
    rw [hlack]
    rfl

theorem headTxs_short {l : List (U8 × U16)} (h : (l.map Prod.fst).Nodup) (seed : U64) :
    ∀ e ∈ (headTxs l h).entries, (txSlices headHashes seed e).length ≤ 0xffff := by
  intro e he
  obtain ⟨p, -, rfl⟩ := mem_headTxs.mp he
  exact slicesOf_headBtx_le headHashes p.1 p.2 _

theorem headTxs_hashed {l : List (U8 × U16)} (h : (l.map Prod.fst).Nodup) :
    (headTxs l h).Hashed headHashes := by
  intro e he
  obtain ⟨p, -, rfl⟩ := mem_headTxs.mp he
  exact txid_headBtx p.1 p.2

/-- The mempool lacks a transaction of the block, and has another too many. -/
theorem recoverBlock_unmixed_leftTxs : ∃ theirs ours : RawIblt 6,
    ofTxmap headHashes 6 1 leftTxs = .ok theirs ∧ ofTxmap headHashes 6 1 rightTxs = .ok ours ∧
      leftTxs.sdiff rightTxs = [headEntry (0, 0)] ∧ rightTxs.sdiff leftTxs = [headEntry (3, 0)] ∧
      recoverBlock headHashes (fun _ _ => true) (fun _ => true) theirs ours 1 rightTxs leftTxs =
        .ok true := by
  obtain ⟨theirs, ours, b, htheirs, hours, hb, hiff⟩ := recoverBlock_unmixed headHashes
    (A := fun _ _ => true) (fun _ _ => rfl) (show 0 < 6 by decide) (fun _ => true)
    (show (1 : U64) ≠ 0 by decide) rightTxs leftTxs leftTxs_agree.symm (headTxs_keyed _)
    (headTxs_hashed _) (headTxs_sliceable _) (headTxs_sliceable _)
    (fun e he => headTxs_short _ 1 e (List.mem_of_mem_filter he)) (headTxs_distinctIds _ 1)
    (headTxs_distinctIds _ 1)
    (by
      rw [leftTxs_sdiff, rightTxs_sdiff, List.forall_mem_singleton, List.forall_mem_singleton]
      decide)
    (by
      rw [leftTxs_sdiff, rightTxs_sdiff]
      exact headEntry_unmixed)
  rw [leftTxs_sdiff, rightTxs_sdiff] at hiff
  obtain rfl : b = true := hiff.mpr ⟨headEntry_peelable, noneWraps_headEntry 1 (by decide)⟩
  exact ⟨theirs, ours, htheirs, hours, leftTxs_sdiff, rightTxs_sdiff, hb⟩

end BitcoinIblt
