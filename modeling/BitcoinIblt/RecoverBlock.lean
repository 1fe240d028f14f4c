import BitcoinIblt.Difference
import BitcoinIblt.IbltPool
import BitcoinIblt.Lib.Reachable

/-!
# Recovering a block

`recover_block` of `iblt-decode.cpp`: subtract our table, peel the difference (our transactions as
a whole, their slices one by one), assemble their slices into transactions, and compare what was
recovered and what is left of the pool with the block.

`peelStep` is one turn of the peeling loop and `peel` the loop. Its termination is part of its
definition: every turn erases a transaction from the pool or inserts a slice into a set that has at
most `2 ^ 64` of them.
-/

namespace BitcoinIblt

open Transition

variable (H : Hashes) (A : Allocator) {size : ℕ}

/-! ## Peeling -/

/-- The variables of the peeling loop. -/
structure PeelState (size : ℕ) where
  diff : Iblt size
  txByTxid48 : UnorderedMap Txid48 Tx
  slices : OrdSet TxSlice.lt

/-- How a turn of the loop ends. -/
inductive PeelNext (size : ℕ)
  /-- `next` returned `NEITHER` -/
  | done
  /-- `return false` -/
  | fail
  | again (st : PeelState size)

/-- The body of the loop for a slice `s` that `next` says is `t`. -/
def peelBody (st : PeelState size) (t : BucketType) (s : TxSlice) : Run (PeelNext size) :=
  match t with
  | .OURS =>
    match st.txByTxid48.find s.getTxid48 with
    | none => .ok .fail
    | some tx => do
      let (diff, _) ← st.diff.removeOurTx H tx.btx s.getTxid48
      let (txByTxid48, erased) := st.txByTxid48.erase s.getTxid48
      if erased then return .again { st with diff, txByTxid48 } else return .fail
  | .THEIRS => do
    let (slices, inserted) := st.slices.insert s
    if inserted then
      let diff ← st.diff.removeTheirSlice H s
      return .again { st with diff, slices }
    else return .fail
  | .NEITHER => .ok .done

def peelStep (st : PeelState size) : Run (PeelNext size) := do
  match ← st.diff.next with
  | none => return .done
  | some (t, s) => peelBody H st t s

/-- The number of slices a set has room for. -/
def maxSlices : ℕ := 2 ^ 64

theorem length_slices_le (slices : OrdSet TxSlice.lt) : slices.toList.length ≤ maxSlices := by
  have hsorted : (slices.toList.map TxSlice.key).Pairwise (· < ·) :=
    List.pairwise_map.mpr (slices.sorted.imp fun h => (TxSlice.lt_iff_key _ _).mp h)
  have hnodup : (slices.toList.map TxSlice.key).Nodup := hsorted.imp fun h => Nat.ne_of_lt h
  have hsub : (slices.toList.map TxSlice.key).toFinset ⊆ Finset.range maxSlices := by
    intro k hk
    obtain ⟨s, -, rfl⟩ := List.mem_map.mp (List.mem_toFinset.mp hk)
    exact Finset.mem_range.mpr s.key_lt
  have hcard := Finset.card_le_card hsub
  rwa [List.toFinset_card_of_nodup hnodup, List.length_map, Finset.card_range] at hcard

/-- Transactions left in the pool and room left in the set of slices. -/
def PeelState.todo (st : PeelState size) : ℕ :=
  st.txByTxid48.size + (maxSlices - st.slices.toList.length)

variable {H}

/-- The ways the body of the loop ends: there is nothing to do, it fails, it removes a transaction
of ours, or it removes a slice of theirs. -/
theorem peelBody_cases {st : PeelState size} {t : BucketType} {s : TxSlice} {r : PeelNext size}
    (h : peelBody H st t s = .ok r) :
    (t = .NEITHER ∧ r = .done) ∨ r = .fail ∨
    (t = .OURS ∧ ∃ tx diff n, st.txByTxid48.find s.getTxid48 = some tx ∧
      st.diff.removeOurTx H tx.btx s.getTxid48 = .ok (diff, n) ∧
      r = .again ⟨diff, (st.txByTxid48.erase s.getTxid48).1, st.slices⟩) ∨
    (t = .THEIRS ∧ ∃ diff, (st.slices.insert s).2 = true ∧
      st.diff.removeTheirSlice H s = .ok diff ∧
      r = .again ⟨diff, st.txByTxid48, (st.slices.insert s).1⟩) := by
  unfold peelBody at h
  cases t with
  | OURS =>
    cases hf : st.txByTxid48.find s.getTxid48 with
    | none =>
      simp only [hf] at h
      cases h
      exact Or.inr (Or.inl rfl)
    | some tx =>
      simp only [hf] at h
      obtain ⟨⟨diff, n⟩, hr, h⟩ := of_bind_ok h
      simp only at h
      split_ifs at h
      · cases h
        exact Or.inr (Or.inr (Or.inl ⟨rfl, tx, diff, n, rfl, hr, rfl⟩))
      · cases h
        exact Or.inr (Or.inl rfl)
  | THEIRS =>
    simp only at h
    split_ifs at h with hins
    · obtain ⟨diff, hr, h⟩ := of_bind_ok h
      cases h
      exact Or.inr (Or.inr (Or.inr ⟨rfl, diff, hins, hr, rfl⟩))
    · cases h
      exact Or.inr (Or.inl rfl)
  | NEITHER =>
    cases h
    exact Or.inl ⟨rfl, rfl⟩

/-- The loop goes on after it has removed a transaction of ours or a slice of theirs. -/
theorem peelBody_again {st st' : PeelState size} {t : BucketType} {s : TxSlice}
    (h : peelBody H st t s = .ok (.again st')) :
    (t = .OURS ∧ ∃ tx diff n, st.txByTxid48.find s.getTxid48 = some tx ∧
      st.diff.removeOurTx H tx.btx s.getTxid48 = .ok (diff, n) ∧
      st' = ⟨diff, (st.txByTxid48.erase s.getTxid48).1, st.slices⟩) ∨
    (t = .THEIRS ∧ ∃ diff, (st.slices.insert s).2 = true ∧
      st.diff.removeTheirSlice H s = .ok diff ∧
      st' = ⟨diff, st.txByTxid48, (st.slices.insert s).1⟩) := by
  rcases peelBody_cases h with ⟨-, hr⟩ | hr | ⟨ht, tx, diff, n, hf, hd, hr⟩ | ⟨ht, diff, hi, hd, hr⟩
  · cases hr
  · cases hr
  · cases hr
    exact Or.inl ⟨ht, tx, diff, n, hf, hd, rfl⟩
  · cases hr
    exact Or.inr ⟨ht, diff, hi, hd, rfl⟩

/-- A turn of the loop makes progress. -/
theorem todo_lt_of_peelBody {st st' : PeelState size} {t : BucketType} {s : TxSlice}
    (h : peelBody H st t s = .ok (.again st')) : st'.todo < st.todo := by
  have hle := length_slices_le st'.slices
  unfold PeelState.todo
  rcases peelBody_again h with ⟨-, tx, diff, n, hf, -, rfl⟩ | ⟨-, diff, hins, -, rfl⟩
  · have := UnorderedMap.size_erase (UnorderedMap.find_eq_some_iff.mp hf)
    simp only
    omega
  · have := OrdSet.length_insert hins
    simp only at hle ⊢
    omega

theorem peelStep_ok {st : PeelState size} {r : PeelNext size} (h : peelStep H st = .ok r) :
    (st.diff.next = .ok none ∧ r = .done) ∨
      ∃ t s, st.diff.next = .ok (some (t, s)) ∧ peelBody H st t s = .ok r := by
  obtain ⟨next, hn, h⟩ := of_bind_ok h
  cases next with
  | none =>
    cases h
    exact Or.inl ⟨hn, rfl⟩
  | some p => exact Or.inr ⟨p.1, p.2, hn, h⟩

theorem peelStep_again {st st' : PeelState size} (h : peelStep H st = .ok (.again st')) :
    ∃ t s, st.diff.next = .ok (some (t, s)) ∧ peelBody H st t s = .ok (.again st') := by
  rcases peelStep_ok h with ⟨-, hr⟩ | hbody
  · cases hr
  · exact hbody

variable (H)

/-- The loop: the state it ends in, or `none` if it returns `false`. -/
def peel (st : PeelState size) : Run (Option (PeelState size)) :=
  match _h : peelStep H st with
  | .error f => .error f
  | .ok .done => .ok (some st)
  | .ok .fail => .ok none
  | .ok (.again st') => peel st'
termination_by st.todo
decreasing_by
  obtain ⟨t, s, -, hbody⟩ := peelStep_again _h
  exact todo_lt_of_peelBody hbody

/-! ## Assembling -/

/-- The variables of the assembly loop. -/
structure AsmState where
  count : ℕ
  transaction : List TxSlice
  recovered : List BitcoinTx

/-- `transaction[count - 1]` -/
def AsmState.last (st : AsmState) : Run TxSlice :=
  match st.transaction[st.count - 1]? with
  | none => .error .outOfRange
  | some s => .ok s

/-- The first half of the loop's body: put the slice where it belongs. -/
def placeSlice (st : AsmState) (s : TxSlice) : Run (Option AsmState) :=
  if st.count = 0 then
    if s.getTxid48.fragBase H ≠ s.fragid then return none
    else do
      let num ← s.slicesExpected
      if num = 0 ∨ 0xffff < num.toNat then return none
      else
        return some { st with
          count := 1, transaction := (List.replicate num.toNat TxSlice.blank).set 0 s }
  else do
    let last ← st.last
    if s.txidbits ≠ last.txidbits then return none
    -- the sum is an `int`
    else if s.fragid.toNat ≠ last.fragid.toNat + 1 then return none
    else if st.transaction.length ≤ st.count then throw .outOfRange
    else
      return some { st with
        count := st.count + 1, transaction := st.transaction.set st.count s }

/-- The second half: a complete transaction is rebuilt. -/
def completeTx (st : AsmState) : Run (Option AsmState) :=
  if st.count = st.transaction.length then do
    match ← rebuildTx A st.transaction with
    | none => return none
    | some tx => return some { st with count := 0, recovered := st.recovered ++ [tx] }
  else return some st

def asmStep (st : AsmState) (s : TxSlice) : Run (Option AsmState) := do
  match ← placeSlice H st s with
  | none => return none
  | some st => completeTx A st

/-- The loop over the slices; `none` if it returns `false`. -/
def asmLoop : List TxSlice → AsmState → Run (Option AsmState)
  | [], st => .ok (some st)
  | s :: slices, st => do
    match ← asmStep H A st s with
    | none => return none
    | some st => asmLoop slices st

/-! ## Comparing -/

/-- A loop of `if (!block.erase(txid)) return false;`. -/
def eraseAll (block : Txmap) : List BitcoinTxid → Option Txmap
  | [] => some block
  | txid :: txids => if (block.erase txid).2 then eraseAll (block.erase txid).1 txids else none

/-- The comparison of the block with `recovered` and what is left of the pool. -/
def compareBlock (recovered : List BitcoinTx) (txByTxid48 : UnorderedMap Txid48 Tx)
    (block : Txmap) : Bool :=
  match eraseAll block (recovered.map (BitcoinTx.txid H)) with
  | none => false
  | some block =>
    match eraseAll block (txByTxid48.entries.map fun p => p.2.txid) with
    | none => false
    | some block => block.entries.isEmpty

/-- What follows the peeling loop. -/
def finish (st : PeelState size) (block : Txmap) : Run Bool :=
  if st.diff.empty then do
    match ← asmLoop H A st.slices.toList ⟨0, [], []⟩ with
    | none => return false
    | some asm =>
      if asm.count ≠ 0 then return false
      else return compareBlock H asm.recovered st.txByTxid48 block
  else return false

def recoverBlock {size' : ℕ} (junk : BucketType → Bool) (theirs : RawIblt size)
    (ours : RawIblt size') (seed : U64) (mempool block : Txmap) : Run Bool := do
  let diff ← Iblt.new H junk theirs ours
  let pool ← IbltPool.new H seed mempool
  match ← peel H ⟨diff, pool.txByTxid48, OrdSet.empty⟩ with
  | none => return false
  | some st => finish H A st block

/-! ## Heads of the loop -/

/-- The state before the first turn. -/
def PeelStart (junk : BucketType → Bool) (theirs ours : RawIblt size) (seed : U64)
    (mempool : Txmap) (st : PeelState size) : Prop :=
  ∃ diff pool, Iblt.new H junk theirs ours = .ok diff ∧ IbltPool.new H seed mempool = .ok pool ∧
    st = ⟨diff, pool.txByTxid48, OrdSet.empty⟩

/-- A turn of the loop. -/
def PeelTurn (st st' : PeelState size) : Prop := peelStep H st = .ok (.again st')

/-- A turn that may pick any bucket that holds a single slice, not only the one `next` picks. -/
def PickTurn (st st' : PeelState size) : Prop :=
  ∃ n, st.diff.typeAt n ≠ .NEITHER ∧
    peelBody H st (st.diff.typeAt n) (st.diff.riblt.buckets.get n) = .ok (.again st')

variable {H}

theorem next_type {d : Iblt size} {t : BucketType} {s : TxSlice}
    (h : d.next = .ok (some (t, s))) : t ≠ .NEITHER := by
  unfold Iblt.next at h
  simp only at h
  split_ifs at h
  · cases h
  · obtain ⟨n, -, h⟩ := of_bind_ok h
    split_ifs at h
    cases h
    decide
  · obtain ⟨n, -, h⟩ := of_bind_ok h
    split_ifs at h
    cases h
    decide

/-- Only a slice that is neither ours nor theirs ends the loop. -/
theorem peelBody_done {st : PeelState size} {t : BucketType} {s : TxSlice}
    (h : peelBody H st t s = .ok .done) : t = .NEITHER := by
  rcases peelBody_cases h with ⟨ht, -⟩ | hr | ⟨-, _, _, _, -, -, hr⟩ | ⟨-, _, -, -, hr⟩
  · exact ht
  · cases hr
  · cases hr
  · cases hr

theorem peelStep_done {st : PeelState size} (h : peelStep H st = .ok .done) :
    st.diff.next = .ok none := by
  rcases peelStep_ok h with ⟨hn, -⟩ | ⟨t, s, hn, hbody⟩
  · exact hn
  · exact absurd (peelBody_done hbody) (next_type hn)

/-- One turn of the loop, and the rest of it. -/
theorem peel_eq (st : PeelState size) : peel H st = peelStep H st >>= fun
    | .done => .ok (some st)
    | .fail => .ok none
    | .again st' => peel H st' := by
  rw [peel]
  split
  · rename_i f hstep
    simp only [hstep]
    rfl
  · rename_i hstep
    simp only [hstep, ok_bind]
  · rename_i hstep
    simp only [hstep, ok_bind]
  · rename_i st' hstep
    simp only [hstep, ok_bind]

/-- The loop ends in a state that it reaches and in which `next` returns `NEITHER`. -/
theorem peel_some {st st' : PeelState size} (h : peel H st = .ok (some st')) :
    Reachable (· = st) (PeelTurn H) st' ∧ st'.diff.next = .ok none := by
  induction hn : st.todo using Nat.strong_induction_on generalizing st with
  | _ n ih =>
    subst hn
    rw [peel_eq] at h
    obtain ⟨next, hstep, h⟩ := of_bind_ok h
    cases next with
    | done =>
      cases h
      exact ⟨.start rfl, peelStep_done hstep⟩
    | fail => cases h
    | again st₁ =>
      obtain ⟨t, s, -, hbody⟩ := peelStep_again hstep
      obtain ⟨hreach, hnone⟩ := ih _ (todo_lt_of_peelBody hbody) h rfl
      exact ⟨Reachable.trans (.next (.start rfl) hstep) hreach, hnone⟩

/-- If no head throws, the loop ends or returns `false`. -/
theorem peel_returns (Inv : PeelState size → Prop)
    (hhead : ∀ st, Inv st → ∃ next, peelStep H st = .ok next)
    (hturn : ∀ st st', Inv st → PeelTurn H st st' → Inv st') {st : PeelState size} (h : Inv st) :
    ∃ result, peel H st = .ok result := by
  induction hn : st.todo using Nat.strong_induction_on generalizing st with
  | _ n ih =>
    subst hn
    obtain ⟨next, hstep⟩ := hhead st h
    rw [peel_eq, hstep, ok_bind]
    cases next with
    | done => exact ⟨_, rfl⟩
    | fail => exact ⟨_, rfl⟩
    | again st' =>
      obtain ⟨t, s, -, hbody⟩ := peelStep_again hstep
      exact ih _ (todo_lt_of_peelBody hbody) (hturn st st' h hstep) rfl

/-- If no head fails or throws, the loop ends. -/
theorem peel_ends {st : PeelState size}
    (h : ∀ st', Reachable (· = st) (PeelTurn H) st' →
      peelStep H st' = .ok .done ∨ ∃ st'', peelStep H st' = .ok (.again st'')) :
    ∃ st', peel H st = .ok (some st') := by
  induction hn : st.todo using Nat.strong_induction_on generalizing st with
  | _ n ih =>
    subst hn
    rw [peel_eq]
    rcases h st (.start rfl) with hdone | ⟨st₁, hagain⟩
    · exact ⟨st, by rw [hdone]; rfl⟩
    · obtain ⟨t, s, -, hbody⟩ := peelStep_again hagain
      obtain ⟨st', hst'⟩ := ih _ (todo_lt_of_peelBody hbody)
        (fun st' hr => h st' (Reachable.trans (.next (.start rfl) hagain) hr)) rfl
      exact ⟨st', by rw [hagain]; exact hst'⟩

end BitcoinIblt
