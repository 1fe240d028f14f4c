import BitcoinIblt.RecoverBlock
import BitcoinIblt.Rebuild

/-!
# Groups of slices

The loops over the recovered slices take them as they come off the wire, and carry only `count` and
`transaction` from one to the next. Between two turns these hold the beginning of one group
(`AsmInv`): slices of one id with consecutive fragment ids from the base on, fewer than the first of
them declares. The first half of a turn refuses a slice or puts it behind the others of its group
(`placeSlice_spec`).
-/

namespace BitcoinIblt

variable {H : Hashes}

/-! ## Groups -/

/-- The slices `g` are the first ones of a transaction that declares `n`. -/
structure GroupFrom (H : Hashes) (n : ℕ) (g : List TxSlice) : Prop where
  declares : ∃ first tail num, g = first :: tail ∧ first.slicesExpected = .ok num ∧ num.toNat = n
  one_le : 1 ≤ n
  le : n ≤ 0xffff
  fragids : ∃ id : Txid48, ∀ i (hi : i < g.length),
    g[i].txidbits = id ∧ g[i].fragid.toNat = (id.fragBase H).toNat + i

/-- All the slices of one transaction, as many as the first one declares. -/
def IsGroup (H : Hashes) (g : List TxSlice) : Prop := GroupFrom H g.length g

theorem GroupFrom.length_pos {n : ℕ} {g : List TxSlice} (h : GroupFrom H n g) : 0 < g.length := by
  obtain ⟨first, tail, -, rfl, -⟩ := h.declares
  exact Nat.succ_pos _

/-- A slice whose fragment id is the base of its id starts a group. -/
theorem groupFrom_singleton {s : TxSlice} {num : U64} (hbase : s.getTxid48.fragBase H = s.fragid)
    (hexp : s.slicesExpected = .ok num) (hpos : num ≠ 0) (hle : num.toNat ≤ 0xffff) :
    GroupFrom H num.toNat [s] := by
  refine ⟨⟨s, [], num, rfl, hexp, rfl⟩, ?_, hle, s.txidbits, fun i hi => ?_⟩
  · by_contra h
    exact hpos (BitVec.eq_of_toNat_eq (by rw [Nat.lt_one_iff.mp (Nat.not_le.mp h)]; rfl))
  · obtain rfl : i = 0 := by simpa using hi
    exact ⟨rfl, congrArg BitVec.toNat hbase.symm⟩

/-- A slice with the id of the last one and the next fragment id belongs to the group. -/
theorem GroupFrom.concat {n : ℕ} {g : List TxSlice} (h : GroupFrom H n g) {s last : TxSlice}
    (hlast : g[g.length - 1]? = some last) (hid : s.txidbits = last.txidbits)
    (hfrag : s.fragid.toNat = last.fragid.toNat + 1) : GroupFrom H n (g ++ [s]) := by
  have hpos := h.length_pos
  obtain ⟨first, tail, num, hg, hexp, hnum⟩ := h.declares
  obtain ⟨id, hids⟩ := h.fragids
  refine ⟨⟨first, tail ++ [s], num, by rw [hg]; rfl, hexp, hnum⟩, h.one_le, h.le, id,
    fun i hi => ?_⟩
  rw [List.length_append, List.length_singleton] at hi
  obtain ⟨hlt, hget⟩ := List.getElem?_eq_some_iff.mp hlast
  obtain ⟨hlid, hlfrag⟩ := hids (g.length - 1) hlt
  rw [hget] at hlid hlfrag
  by_cases hi' : i < g.length
  · rw [List.getElem_append_left hi']
    exact hids i hi'
  · obtain rfl : i = g.length := by omega
    rw [List.getElem_append_right (le_refl _)]
    simp only [Nat.sub_self, List.getElem_cons_zero]
    exact ⟨hid.trans hlid, by omega⟩

/-! ## Placing a slice -/

/-- `transaction` has room for the slices the first one declares, and starts with `cur`. -/
structure Holding (H : Hashes) (st : AsmState) (cur : List TxSlice) : Prop where
  group : GroupFrom H st.transaction.length cur
  count : st.count = cur.length
  le : cur.length ≤ st.transaction.length
  take : st.transaction.take st.count = cur

/-- Between two turns: no group is open, or one is that has slices missing. -/
def AsmInv (H : Hashes) (st : AsmState) (cur : List TxSlice) : Prop :=
  (st.count = 0 ∧ cur = []) ∨ (Holding H st cur ∧ cur.length < st.transaction.length)

theorem slicesExpected_returns (s : TxSlice) : ∃ num, s.slicesExpected = .ok num := by
  obtain ⟨v, c, h⟩ := pullVarint_returns (some s.contents.1)
  exact ⟨v, by rw [TxSlice.slicesExpected, h]; rfl⟩

theorem Holding.last {st : AsmState} {cur : List TxSlice} (h : Holding H st cur) :
    ∃ last, st.last = .ok last ∧ cur[cur.length - 1]? = some last := by
  have hpos := h.group.length_pos
  have hlt : cur.length - 1 < cur.length := by omega
  have hget : st.transaction[st.count - 1]? = some cur[cur.length - 1] := by
    have htake := h.take
    rw [h.count] at htake ⊢
    rw [← List.getElem?_take_of_lt hlt, htake, List.getElem?_eq_getElem hlt]
  exact ⟨cur[cur.length - 1], by rw [AsmState.last, hget], List.getElem?_eq_getElem hlt⟩

/-- The first half of the body refuses the slice, or puts it behind those of its group. -/
theorem placeSlice_spec {st : AsmState} {cur : List TxSlice} (h : AsmInv H st cur) (s : TxSlice) :
    placeSlice H st s = .ok none ∨
      ∃ st', placeSlice H st s = .ok (some st') ∧ Holding H st' (cur ++ [s]) := by
  rcases h with ⟨hcount, rfl⟩ | ⟨h, hlt⟩
  · obtain ⟨num, hnum⟩ := slicesExpected_returns s
    rw [placeSlice, if_pos hcount, hnum]
    by_cases hbase : s.getTxid48.fragBase H ≠ s.fragid
    · rw [if_pos hbase]
      exact Or.inl rfl
    · rw [if_neg hbase, ok_bind]
      by_cases hrange : num = 0 ∨ 0xffff < num.toNat
      · rw [if_pos hrange]
        exact Or.inl rfl
      · rw [if_neg hrange]
        obtain ⟨hzero, hbig⟩ := not_or.mp hrange
        have hgroup := groupFrom_singleton (not_not.mp hbase) hnum hzero (Nat.not_lt.mp hbig)
        have hlen : ((List.replicate num.toNat TxSlice.blank).set 0 s).length = num.toNat := by
          rw [List.length_set, List.length_replicate]
        obtain ⟨k, hk⟩ := Nat.exists_eq_add_of_le' hgroup.one_le
        refine Or.inr ⟨_, rfl, ⟨?_, rfl, ?_, ?_⟩⟩
        · simp only [hlen]
          exact hgroup
        · simp only [hlen]
          exact hgroup.one_le
        · simp only [hk, List.replicate_succ, List.set_cons_zero]
          rfl
  · have hpos := h.group.length_pos
    obtain ⟨last, hlast, hget⟩ := h.last
    rw [placeSlice, if_neg (by rw [h.count]; omega), hlast, ok_bind]
    by_cases hid : s.txidbits ≠ last.txidbits
    · rw [if_pos hid]
      exact Or.inl rfl
    · rw [if_neg hid]
      by_cases hfrag : s.fragid.toNat ≠ last.fragid.toNat + 1
      · rw [if_pos hfrag]
        exact Or.inl rfl
      · rw [if_neg hfrag, if_neg (by rw [h.count]; omega)]
        have hgroup := h.group.concat hget (not_not.mp hid) (not_not.mp hfrag)
        have hcount : st.count < st.transaction.length := by rw [h.count]; exact hlt
        refine Or.inr ⟨_, rfl, ⟨?_, ?_, ?_, ?_⟩⟩
        · simp only [List.length_set]
          exact hgroup
        · simp only [List.length_append, List.length_singleton, h.count]
        · simp only [List.length_append, List.length_singleton, List.length_set]
          exact hlt
        · simp only [List.take_succ_eq_append_getElem
            (show st.count < (st.transaction.set st.count s).length by rwa [List.length_set]),
            List.take_set_of_le (Nat.le_refl _), List.getElem_set_self, h.take]

theorem asmInv_start : AsmInv H ⟨0, [], []⟩ [] := Or.inl ⟨rfl, rfl⟩

end BitcoinIblt
