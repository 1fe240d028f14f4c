import BitcoinIblt.Assembly
import BitcoinIblt.SliceCount
import BitcoinIblt.SliceGroups

/-!
# The check of the slices

`decode_block` of `iblt-test.cpp` walks over the recovered slices like `recover_block`, but stops
short of rebuilding: "We recovered the entire transaction!" is followed by two FIXMEs. So what the
walk accepts is a language. It accepts a list of slices exactly if the list falls apart into
complete groups, one after the other (`checkLoop_iff`); and for the slices of transactions that is
so exactly if none of them wraps around (`groups_iff_noneWraps`).
-/

namespace BitcoinIblt

variable (H : Hashes)

/-! ## The code -/

/-- "We recovered the entire transaction!" But it is not reconstructed. -/
def checkStep (st : AsmState) (s : TxSlice) : Run (Option AsmState) := do
  match ← placeSlice H st s with
  | none => return none
  | some st =>
    if st.count = st.transaction.length then return some { st with count := 0 }
    else return some st

/-- "Try to assemble the slices into txs." -/
def checkLoop : List TxSlice → AsmState → Run (Option AsmState)
  | [], st => .ok (some st)
  | s :: slices, st => do
    match ← checkStep H st s with
    | none => return none
    | some st => checkLoop slices st

variable {H}

/-! ## What is accepted is in groups -/

/-- A turn that goes on leaves an open group or none; in the latter case the slice was the last one
of its group. -/
theorem checkStep_spec {st : AsmState} {cur : List TxSlice} (h : AsmInv H st cur) (s : TxSlice) :
    checkStep H st s = .ok none ∨
      ∃ st' cur', checkStep H st s = .ok (some st') ∧ AsmInv H st' cur' ∧
        (cur' = cur ++ [s] ∨ (cur' = [] ∧ IsGroup H (cur ++ [s]))) := by
  unfold checkStep
  rcases placeSlice_spec h s with hp | ⟨st', hp, hst'⟩
  · rw [hp]
    exact Or.inl rfl
  · rw [hp, ok_bind]
    have hcount := hst'.count
    by_cases hfull : st'.count = st'.transaction.length
    · have hgroup : IsGroup H (cur ++ [s]) := by
        unfold IsGroup
        rw [← hcount, hfull]
        exact hst'.group
      dsimp only
      rw [if_pos hfull]
      exact Or.inr ⟨_, [], rfl, Or.inl ⟨rfl, rfl⟩, Or.inr ⟨rfl, hgroup⟩⟩
    · have hle := hst'.le
      dsimp only
      rw [if_neg hfull]
      exact Or.inr ⟨st', _, rfl, Or.inr ⟨hst', by omega⟩, Or.inl rfl⟩

/-- The walk never stops but by giving up. -/
theorem checkLoop_returns {st : AsmState} {cur : List TxSlice} (h : AsmInv H st cur)
    (l : List TxSlice) : ∃ r, checkLoop H l st = .ok r := by
  induction l generalizing st cur with
  | nil => exact ⟨some st, rfl⟩
  | cons s l ih =>
    unfold checkLoop
    rcases checkStep_spec h s with hs | ⟨st', cur', hs, hst', -⟩
    · rw [hs]
      exact ⟨none, rfl⟩
    · rw [hs]
      exact ih hst'

/-- A run that ends with nothing left over completes the open group and reads whole groups. -/
theorem checkLoop_groups {st st' : AsmState} {cur l : List TxSlice} (h : AsmInv H st cur)
    (hrun : checkLoop H l st = .ok (some st')) (hcount : st'.count = 0) :
    ∃ groups : List (List TxSlice), cur ++ l = groups.flatten ∧ ∀ g ∈ groups, IsGroup H g := by
  induction l generalizing st cur with
  | nil =>
    cases hrun
    rcases h with ⟨-, rfl⟩ | ⟨h, -⟩
    · exact ⟨[], rfl, fun g hg => absurd hg List.not_mem_nil⟩
    · have hpos := h.group.length_pos
      rw [h.count] at hcount
      omega
  | cons s l ih =>
    unfold checkLoop at hrun
    rcases checkStep_spec h s with hs | ⟨st₁, cur₁, hs, hst₁, hcur⟩
    · rw [hs] at hrun
      cases hrun
    · rw [hs] at hrun
      obtain ⟨groups, hl, hgroups⟩ := ih hst₁ hrun
      have hassoc : cur ++ s :: l = (cur ++ [s]) ++ l := by simp
      rw [hassoc]
      rcases hcur with rfl | ⟨rfl, hgroup⟩
      · exact ⟨groups, hl, hgroups⟩
      · -- the slice completes its group
        refine ⟨(cur ++ [s]) :: groups, ?_, List.forall_mem_cons.mpr ⟨hgroup, hgroups⟩⟩
        rw [List.flatten_cons, ← hl, List.nil_append]

/-! ## What is in groups is accepted -/

/-- The first slice declares the number, whatever follows it. -/
theorem GroupFrom.declared_eq {n n' : ℕ} {s : TxSlice} {g g' : List TxSlice}
    (h : GroupFrom H n (s :: g)) (h' : GroupFrom H n' (s :: g')) : n = n' := by
  obtain ⟨first, tail, num, hg, hexp, rfl⟩ := h.declares
  obtain ⟨first', tail', num', hg', hexp', rfl⟩ := h'.declares
  cases hg
  cases hg'
  rw [hexp] at hexp'
  cases hexp'
  rfl

/-- The next slice of a group is put behind those before it. -/
theorem placeSlice_of_group {st : AsmState} {cur rest : List TxSlice} {s : TxSlice} {n : ℕ}
    (h : AsmInv H st cur) (hg : GroupFrom H n (cur ++ s :: rest)) :
    ∃ st', placeSlice H st s = .ok (some st') ∧ Holding H st' (cur ++ [s]) := by
  refine (placeSlice_spec h s).resolve_left fun hnone => ?_
  obtain ⟨id, hids⟩ := hg.fragids
  have hlen : (cur ++ s :: rest).length = cur.length + (rest.length + 1) := by
    rw [List.length_append, List.length_cons]
  have hs : (cur ++ s :: rest)[cur.length]? = some s := by
    rw [List.getElem?_append_right (le_refl _), Nat.sub_self]
    rfl
  obtain ⟨hlt, hget⟩ := List.getElem?_eq_some_iff.mp hs
  obtain ⟨hid, hfrag⟩ := hids cur.length hlt
  rw [hget] at hid hfrag
  rcases h with ⟨hcount, rfl⟩ | ⟨hold, -⟩
  · obtain ⟨first, tail, num, hfirst, hexp, hnum⟩ := hg.declares
    cases hfirst
    have hbase : ¬ s.getTxid48.fragBase H ≠ s.fragid := by
      rw [not_not, TxSlice.getTxid48, hid]
      exact BitVec.eq_of_toNat_eq hfrag.symm
    have hrange : ¬ (num = 0 ∨ 0xffff < num.toNat) := by
      have hone := hg.one_le
      have hle := hg.le
      rintro (h0 | hbig)
      · rw [h0] at hnum
        change 0 = n at hnum
        omega
      · omega
    unfold placeSlice at hnone
    rw [if_pos hcount, if_neg hbase, hexp, ok_bind, if_neg hrange] at hnone
    cases hnone
  · obtain ⟨last, hlast, hlastget⟩ := hold.last
    have hpos := hold.group.length_pos
    obtain ⟨hlt', hget'⟩ := List.getElem?_eq_some_iff.mp hlastget
    obtain ⟨hlid, hlfrag⟩ := hids (cur.length - 1) (by omega)
    rw [List.getElem_append_left hlt', hget'] at hlid hlfrag
    have hsame : ¬ s.txidbits ≠ last.txidbits := not_not.mpr (hid.trans hlid.symm)
    have hsucc : ¬ s.fragid.toNat ≠ last.fragid.toNat + 1 := by omega
    unfold placeSlice at hnone
    rw [if_neg (by rw [hold.count]; omega), hlast, ok_bind, if_neg hsame, if_neg hsucc] at hnone
    split_ifs at hnone
    cases hnone

/-- The rest of an open group is read, and the group is closed. -/
theorem checkLoop_group {cur suf : List TxSlice} {st : AsmState} (h : AsmInv H st cur)
    (hg : IsGroup H (cur ++ suf)) (hne : suf ≠ []) (rest : List TxSlice) :
    ∃ st', st'.count = 0 ∧ checkLoop H (suf ++ rest) st = checkLoop H rest st' := by
  induction suf generalizing cur st with
  | nil => exact absurd rfl hne
  | cons s suf ih =>
    obtain ⟨st₁, hplace, hold⟩ := placeSlice_of_group h hg
    obtain ⟨a, l, hcons⟩ : ∃ a l, cur ++ [s] = a :: l :=
      List.exists_cons_of_ne_nil (by simp)
    have hassoc : cur ++ s :: suf = a :: (l ++ suf) := by
      rw [← List.cons_append, ← hcons]
      simp
    have hdecl : st₁.transaction.length = (cur ++ s :: suf).length := by
      have hgroup := hold.group
      unfold IsGroup at hg
      rw [hcons] at hgroup
      have hg' := hg
      rw [hassoc] at hg'
      rw [hgroup.declared_eq hg', hassoc]
    have hcount := hold.count
    rw [List.length_append, List.length_singleton] at hcount
    rw [List.length_append, List.length_cons] at hdecl
    have hstep : checkLoop H (s :: suf ++ rest) st = checkStep H st s >>= fun
        | none => .ok none
        | some st => checkLoop H (suf ++ rest) st := rfl
    unfold checkStep at hstep
    rw [hplace, ok_bind] at hstep
    cases suf with
    | nil =>
      have hfull : st₁.count = st₁.transaction.length := by
        rw [List.length_nil] at hdecl
        omega
      dsimp only at hstep
      rw [if_pos hfull] at hstep
      exact ⟨_, rfl, hstep⟩
    | cons s' suf =>
      rw [List.length_cons] at hdecl
      have hopen : ¬ st₁.count = st₁.transaction.length := by omega
      dsimp only at hstep
      rw [if_neg hopen] at hstep
      have hg' : IsGroup H ((cur ++ [s]) ++ s' :: suf) := by
        rw [List.append_assoc]
        exact hg
      have hlt : (cur ++ [s]).length < st₁.transaction.length := by
        rw [List.length_append, List.length_singleton]
        omega
      obtain ⟨st', hzero, hrun⟩ := ih (Or.inr ⟨hold, hlt⟩) hg' (List.cons_ne_nil _ _)
      exact ⟨st', hzero, hstep.trans hrun⟩

/-- Groups are read one after the other. -/
theorem checkLoop_of_groups {groups : List (List TxSlice)} (hgroups : ∀ g ∈ groups, IsGroup H g)
    (st : AsmState) (hst : st.count = 0) :
    ∃ st', checkLoop H groups.flatten st = .ok (some st') ∧ st'.count = 0 := by
  induction groups generalizing st with
  | nil => exact ⟨st, rfl, hst⟩
  | cons g groups ih =>
    obtain ⟨hg, hrest⟩ := List.forall_mem_cons.mp hgroups
    have hne : g ≠ [] := List.ne_nil_of_length_pos (GroupFrom.length_pos hg)
    have hopen : AsmInv H st [] := Or.inl ⟨hst, rfl⟩
    obtain ⟨st₁, hzero, hrun⟩ := checkLoop_group hopen hg hne groups.flatten
    rw [List.flatten_cons, hrun]
    exact ih hrest _ hzero

/-- The walk ends with nothing left over exactly if the list falls apart into groups. -/
theorem checkLoop_accepts (l : List TxSlice) :
    (∃ st, checkLoop H l ⟨0, [], []⟩ = .ok (some st) ∧ st.count = 0) ↔
      ∃ groups : List (List TxSlice), l = groups.flatten ∧ ∀ g ∈ groups, IsGroup H g := by
  constructor
  · rintro ⟨st, hrun, hcount⟩
    exact checkLoop_groups asmInv_start hrun hcount
  · rintro ⟨groups, rfl, hgroups⟩
    exact checkLoop_of_groups hgroups _ rfl

/-! ## The slices of transactions -/

/-- Without a wrap the slices of a transaction are a group. -/
theorem isGroup_slicesOf {p : BitcoinTx × Txid48} (hp : Sliceable p.1)
    (hlen : (slicesOf H p.1 p.2).length ≤ 0xffff) (hwrap : ¬ Wraps H p) :
    IsGroup H (slicesOf H p.1 p.2) := by
  unfold Wraps at hwrap
  refine ⟨slicesOf_expected p.2 hp, List.length_pos_iff.mpr (slicesOf_ne_nil p.2 hp), hlen, p.2,
    fun i hi => ⟨(slicesOf_getElem p.2 hi).1, ?_⟩⟩
  rw [fragid_toNat hi, Nat.mod_eq_of_lt (by omega), Nat.add_comm]

/-- No group has a slice of a transaction that wraps around with the fragment id 0. -/
theorem not_wraps_of_groups {p : BitcoinTx × Txid48}
    (hlen : (slicesOf H p.1 p.2).length ≤ 0xffff) {groups : List (List TxSlice)}
    (hgroups : ∀ g ∈ groups, IsGroup H g)
    (hsub : ∀ s ∈ slicesOf H p.1 p.2, s ∈ groups.flatten) : ¬ Wraps H p := by
  intro hwrap
  obtain ⟨hbase, z, hz, hzero⟩ := exists_fragid_zero hwrap hlen
  obtain ⟨g, hg, hzg⟩ := List.mem_flatten.mp (hsub z hz)
  obtain ⟨id, hids⟩ := (hgroups g hg).fragids
  obtain ⟨i, hi, rfl⟩ := List.getElem_of_mem hzg
  obtain ⟨hid, hfrag⟩ := hids i hi
  have hid' : id = p.2 := by rw [← hid, txidbits_of_mem p.2 hz]
  rw [hzero, hid'] at hfrag
  apply hbase
  apply BitVec.eq_of_toNat_eq
  change 0 = _ at hfrag
  show (p.2.fragBase H).toNat = 0
  omega

/-- The slices of transactions with distinct ids fall apart into complete groups exactly if none of
the transactions wraps around. -/
theorem groups_iff_noneWraps {T : List (BitcoinTx × Txid48)} (hids : (T.map Prod.snd).Nodup)
    (hT : ∀ p ∈ T, Sliceable p.1 ∧ (slicesOf H p.1 p.2).length ≤ 0xffff) {l : List TxSlice}
    (hl : SlicesOfAll H T l) :
    (∃ groups : List (List TxSlice), l = groups.flatten ∧ ∀ g ∈ groups, IsGroup H g) ↔
      ∀ p ∈ T, ¬ Wraps H p := by
  constructor
  · rintro ⟨groups, rfl, hgroups⟩ p hp
    exact not_wraps_of_groups (hT p hp).2 hgroups fun s hs => (hl.2 s).mpr ⟨p, hp, hs⟩
  · intro hfine
    obtain ⟨T', hperm, hsorted⟩ := exists_sorted hids
    have hmem : ∀ p ∈ T', p ∈ T := fun p hp => hperm.mem_iff.mp hp
    refine ⟨T'.map fun p => slicesOf H p.1 p.2, ?_, ?_⟩
    · refine OrdSet.toList_eq_of_mem_iff hl.1
        (flatMap_slicesOf_sorted hsorted fun p hp => hfine p (hmem p hp)) fun s => ?_
      rw [hl.2, List.mem_flatten]
      simp only [List.mem_map, exists_exists_and_eq_and, hperm.mem_iff]
    · rw [List.forall_mem_map]
      exact fun p hp => isGroup_slicesOf (hT p (hmem p hp)).1 (hT p (hmem p hp)).2
        (hfine p (hmem p hp))

/-- **The language of the check.** Whatever slices were recovered, the walk over them returns. It
ends with nothing left over exactly if they fall apart into complete groups, one after the other;
and on the slices of transactions with distinct ids exactly if none of these wraps around. -/
theorem checkLoop_iff (H : Hashes) (slices : OrdSet TxSlice.lt) :
    (∃ r, checkLoop H slices.toList ⟨0, [], []⟩ = .ok r) ∧
    ((∃ st, checkLoop H slices.toList ⟨0, [], []⟩ = .ok (some st) ∧ st.count = 0) ↔
      ∃ groups : List (List TxSlice), slices.toList = groups.flatten ∧
        ∀ g ∈ groups, IsGroup H g) ∧
    ∀ T : List (BitcoinTx × Txid48), (T.map Prod.snd).Nodup →
      (∀ p ∈ T, Sliceable p.1 ∧ (slicesOf H p.1 p.2).length ≤ 0xffff) →
      (∀ s, s ∈ slices ↔ ∃ p ∈ T, s ∈ slicesOf H p.1 p.2) →
        ((∃ st, checkLoop H slices.toList ⟨0, [], []⟩ = .ok (some st) ∧ st.count = 0) ↔
          ∀ p ∈ T, ¬ Wraps H p) := by
  refine ⟨checkLoop_returns asmInv_start _, checkLoop_accepts _, fun T hids hT hslices => ?_⟩
  rw [checkLoop_accepts]
  exact groups_iff_noneWraps hids hT ⟨slices.sorted, hslices⟩

theorem checkLoop_iff_headPair : ∃ (slices : OrdSet TxSlice.lt) (st : AsmState),
    slices.toList.length = 7 ∧
      (∀ s, s ∈ slices ↔ ∃ p ∈ headPair, s ∈ slicesOf headHashes p.1 p.2) ∧
      checkLoop headHashes slices.toList ⟨0, [], []⟩ = .ok (some st) ∧ st.count = 0 := by
  obtain ⟨slices, hlen, hmem⟩ := exists_headPair_slices
  obtain ⟨st, h⟩ := ((checkLoop_iff headHashes slices).2.2 headPair headPair_ids
    headPair_sliceable hmem).mpr headPair_not_wraps
  exact ⟨slices, st, hlen, hmem, h⟩

end BitcoinIblt
