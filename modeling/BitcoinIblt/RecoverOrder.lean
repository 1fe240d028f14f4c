import BitcoinIblt.AssemblySound
import BitcoinIblt.BlockComparison
import BitcoinIblt.PeelHistory

/-!
# How a run of `recover_block` ends

Two facts about the program as a whole, for tables with any contents. It returns, unless a count on
the wire asks for more memory than there is (`recoverBlock_returns`). And what it returns does not
depend on the order in which the containers hand out the mempool and the block
(`recoverBlock_perm`): two runs go through the same differences and the same slices, and their
pools differ in the order only (`SamePool`).
-/

namespace BitcoinIblt

open RawIblt Transition

variable {H : Hashes} {A : Allocator} {size : ℕ}

/-! ## Returning -/

/-- What follows the loop returns, unless an allocation fails. -/
theorem finish_returns (H : Hashes) (A : Allocator) (st : PeelState size) (B : Txmap) :
    (∃ b, finish H A st B = .ok b) ∨
      finish H A st B = .error .badArrayNewLength ∧ ¬ A.Succeeds := by
  unfold finish
  split_ifs with hempty
  · rcases asmLoop_check (A := A) (asmInv_start (H := H)) st.slices.toList with
      ⟨hr, hA⟩ | hr | ⟨asm, hr, -⟩
    · rw [hr]
      exact Or.inr ⟨rfl, hA⟩
    · rw [hr]
      exact Or.inl ⟨false, rfl⟩
    · rw [hr, ok_bind]
      refine Or.inl ?_
      dsimp only
      split_ifs
      · exact ⟨_, rfl⟩
      · exact ⟨_, rfl⟩
  · exact Or.inl ⟨false, rfl⟩

/-- Without buckets there is nothing to peel. -/
theorem peelStep_no_buckets (hsize : ¬ 0 < size) {st : PeelState size}
    (h : Iblt.InStep H st.diff ∅) : peelStep H st = .ok .done := by
  unfold peelStep
  rcases h.sync.next with ⟨hnone, -⟩ | ⟨n, -⟩
  · rw [hnone]
    rfl
  · exact absurd n.isLt (by omega)

/-- The loop ends or gives up. -/
theorem PeelStart.returns {junk : BucketType → Bool} {theirs ours : RawIblt size} {seed : U64}
    {M : Txmap} {st : PeelState size} (hstart : PeelStart H junk theirs ours seed M st)
    (hids : M.DistinctIds H seed) (hsl : ∀ e ∈ M.entries, Sliceable e.2.btx) :
    ∃ result, peel H st = .ok result := by
  by_cases hsize : 0 < size
  · exact (Peeled.start hids hsl hstart).returns hsize
  · obtain ⟨diff, pool, hd, -, rfl⟩ := hstart
    obtain ⟨diff', hd', -, hin⟩ := Iblt.new_ok H junk theirs ours
    rw [hd] at hd'
    cases hd'
    exact ⟨_, by rw [peel_eq, peelStep_no_buckets hsize hin, ok_bind]⟩

/-- **Containment.** Whatever two tables of one size hold, on a mempool with distinct short ids
whose transactions can be cut `recover_block` returns `true` or `false`. The one exception that can
leave it is the one that `new` throws when a count on the wire asks for too much. -/
theorem recoverBlock_returns (H : Hashes) (A : Allocator) {size : ℕ}
    (junk : BucketType → Bool) (theirs ours : RawIblt size) {seed : U64} (hseed : seed ≠ 0)
    (M B : Txmap) (hids : M.DistinctIds H seed) (hsl : ∀ e ∈ M.entries, Sliceable e.2.btx) :
    (∃ b, recoverBlock H A junk theirs ours seed M B = .ok b) ∨
      recoverBlock H A junk theirs ours seed M B = .error .badArrayNewLength ∧ ¬ A.Succeeds := by
  obtain ⟨diff, hd, -⟩ := Iblt.new_ok H junk theirs ours
  obtain ⟨pool, hp, -⟩ := IbltPool.new_ok (H := H) hseed hids
  have hstart : PeelStart H junk theirs ours seed M ⟨diff, pool.txByTxid48, OrdSet.empty⟩ :=
    ⟨diff, pool, hd, hp, rfl⟩
  obtain ⟨result, hpeel⟩ := hstart.returns hids hsl
  unfold recoverBlock
  rw [hd, ok_bind, hp, ok_bind, hpeel, ok_bind]
  cases result with
  | none => exact Or.inl ⟨false, rfl⟩
  | some st => exact finish_returns H A st B

/-- A table that no sender makes: its counts do not go with its contents. -/
def hostileTable : RawIblt 3 :=
  ⟨#v[⟨5, 7, zeroBytes ibltSize⟩, ⟨0, 3, zeroBytes ibltSize⟩, ⟨9, 0, zeroBytes ibltSize⟩],
    #v[2, 1, -300]⟩

/-- Against the table of a transaction, which is in all three buckets. -/
theorem recoverBlock_returns_hostile : ∃ ours : RawIblt 3,
    ofTxmap spreadHashes 3 1 oneTx = .ok ours ∧
      ∃ b, recoverBlock spreadHashes (fun _ _ => true) (fun _ => true) hostileTable ours 1 oneTx
        UnorderedMap.empty = .ok b := by
  obtain ⟨ours, hours, -⟩ := ofTxmap_ok (H := spreadHashes) (show 0 < 3 by decide)
    (show (1 : U64) ≠ 0 by decide) oneTx_sliceable
  refine ⟨ours, hours, (recoverBlock_returns spreadHashes (fun _ _ => true) (fun _ => true)
    hostileTable ours (show (1 : U64) ≠ 0 by decide) oneTx UnorderedMap.empty
    (List.nodup_singleton _) oneTx_sliceable).resolve_right ?_⟩
  rintro ⟨-, hA⟩
  exact hA fun _ _ => rfl

/-! ## The order of the containers -/

/-- Both throw the same, or return results in the relation. -/
def SameRun {α : Type} (R : α → α → Prop) (x y : Run α) : Prop :=
  (∃ f, x = .error f ∧ y = .error f) ∨ ∃ a b, x = .ok a ∧ y = .ok b ∧ R a b

theorem SameRun.bind {α β : Type} {R : α → α → Prop} {R' : β → β → Prop} {x y : Run α}
    {f g : α → Run β} (h : SameRun R x y) (hf : ∀ a b, R a b → SameRun R' (f a) (g b)) :
    SameRun R' (x >>= f) (y >>= g) := by
  rcases h with ⟨e, rfl, rfl⟩ | ⟨a, b, rfl, rfl, hab⟩
  · exact Or.inl ⟨e, rfl, rfl⟩
  · exact hf a b hab

theorem SameRun.refl {α : Type} {R : α → α → Prop} (hR : ∀ a, R a a) (x : Run α) :
    SameRun R x x := by
  cases x with
  | error f => exact Or.inl ⟨f, rfl, rfl⟩
  | ok a => exact Or.inr ⟨a, a, rfl, rfl, hR a⟩

theorem SameRun.ok {α : Type} {R : α → α → Prop} {a b : α} (h : R a b) :
    SameRun R (.ok a) (.ok b) :=
  Or.inr ⟨a, b, rfl, rfl, h⟩

theorem SameRun.eq {α : Type} {x y : Run α} (h : SameRun (· = ·) x y) : x = y := by
  rcases h with ⟨f, rfl, rfl⟩ | ⟨a, b, rfl, rfl, hab⟩
  · rfl
  · rw [hab]

/-- The states of two loops that differ in the order of the pool only. -/
structure SamePool (st st' : PeelState size) : Prop where
  diff : st'.diff = st.diff
  pool : st.txByTxid48.entries.Perm st'.txByTxid48.entries
  slices : st'.slices = st.slices

/-- Two turns that end alike. -/
def SameNext : PeelNext size → PeelNext size → Prop
  | .done, .done => True
  | .fail, .fail => True
  | .again st, .again st' => SamePool st st'
  | _, _ => False

theorem peelBody_same {st st' : PeelState size} (h : SamePool st st') (t : BucketType)
    (s : TxSlice) : SameRun SameNext (peelBody H st t s) (peelBody H st' t s) := by
  obtain ⟨diff, pool, slices⟩ := st
  obtain ⟨diff', pool', slices'⟩ := st'
  obtain ⟨rfl, hpool, rfl⟩ := h
  unfold peelBody
  cases t with
  | OURS =>
    dsimp only
    rw [UnorderedMap.find_perm hpool]
    cases pool'.find s.getTxid48 with
    | none => exact SameRun.ok trivial
    | some tx =>
      obtain ⟨herase, hfound⟩ := UnorderedMap.erase_congr_perm hpool s.getTxid48
      refine SameRun.bind (SameRun.refl (fun _ => rfl) _) fun a b hab => ?_
      cases hab
      simp only [hfound]
      split_ifs
      · exact SameRun.ok ⟨rfl, herase, rfl⟩
      · exact SameRun.ok trivial
  | THEIRS =>
    dsimp only
    split_ifs
    · refine SameRun.bind (SameRun.refl (fun _ => rfl) _) fun a b hab => ?_
      cases hab
      exact SameRun.ok ⟨rfl, hpool, rfl⟩
    · exact SameRun.ok trivial
  | NEITHER => exact SameRun.ok trivial

theorem peelStep_same {st st' : PeelState size} (h : SamePool st st') :
    SameRun SameNext (peelStep H st) (peelStep H st') := by
  unfold peelStep
  rw [h.diff]
  refine SameRun.bind (SameRun.refl (fun _ => rfl) _) fun a b hab => ?_
  cases hab
  cases a with
  | none => exact SameRun.ok trivial
  | some p => exact peelBody_same h p.1 p.2

/-- The two loops end in states that differ in the order of the pool only. -/
theorem peel_same {st st' : PeelState size} (h : SamePool st st') :
    SameRun (Option.Rel SamePool) (peel H st) (peel H st') := by
  induction hn : st.todo using Nat.strong_induction_on generalizing st st' with
  | _ n ih =>
    subst hn
    rw [peel_eq, peel_eq]
    rcases peelStep_same (H := H) h with ⟨f, h₁, h₂⟩ | ⟨next, next', h₁, h₂, hnext⟩
    · rw [h₁, h₂]
      exact Or.inl ⟨f, rfl, rfl⟩
    · rw [h₁, h₂, ok_bind, ok_bind]
      cases next with
      | done =>
        cases next' with
        | done => exact SameRun.ok (Option.Rel.some h)
        | fail => exact absurd hnext id
        | again st₁' => exact absurd hnext id
      | fail =>
        cases next' with
        | done => exact absurd hnext id
        | fail => exact SameRun.ok Option.Rel.none
        | again st₁' => exact absurd hnext id
      | again st₁ =>
        cases next' with
        | done => exact absurd hnext id
        | fail => exact absurd hnext id
        | again st₁' =>
          obtain ⟨t, s, -, hbody⟩ := peelStep_again h₁
          exact ih _ (todo_lt_of_peelBody hbody) hnext rfl

theorem compareBlock_perm (recovered : List BitcoinTx) {pool pool' : UnorderedMap Txid48 Tx}
    {B B' : Txmap} (hpool : pool.entries.Perm pool'.entries) (hB : B.entries.Perm B'.entries) :
    compareBlock H recovered pool B = compareBlock H recovered pool' B' := by
  have hkeys : B.keys.Perm B'.keys := hB.map Prod.fst
  have hrec : (reconstructed H recovered pool).Perm (reconstructed H recovered pool') :=
    (hpool.map fun p => p.2.txid).append_left _
  apply Bool.eq_iff_iff.mpr
  rw [compareBlock_iff, compareBlock_iff]
  exact ⟨fun h => hkeys.symm.trans (h.trans hrec), fun h => hkeys.trans (h.trans hrec.symm)⟩

theorem finish_same {st st' : PeelState size} (h : SamePool st st') {B B' : Txmap}
    (hB : B.entries.Perm B'.entries) : finish H A st B = finish H A st' B' := by
  unfold finish
  rw [h.diff, h.slices]
  split_ifs
  · cases asmLoop H A st.slices.toList ⟨0, [], []⟩ with
    | error f => rfl
    | ok r =>
      cases r with
      | none => rfl
      | some asm =>
        rw [ok_bind, ok_bind]
        dsimp only
        rw [compareBlock_perm asm.recovered h.pool hB]
  · rfl

/-- The constructors of the two pools throw the same, or file the same transactions. -/
theorem new_same (H : Hashes) (seed : U64) {M M' : Txmap} (h : M.entries.Perm M'.entries) :
    SameRun (fun pool pool' => pool.txByTxid48.entries.Perm pool'.txByTxid48.entries)
      (IbltPool.new H seed M) (IbltPool.new H seed M') := by
  by_cases hseed : seed = 0
  · -- the assertion fires on the first transaction
    unfold IbltPool.new
    cases hM : M.entries with
    | nil =>
      rw [hM] at h
      rw [h.symm.eq_nil]
      exact SameRun.ok (List.Perm.refl _)
    | cons e l =>
      cases hM' : M'.entries with
      | nil =>
        rw [hM, hM'] at h
        exact absurd h.eq_nil (List.cons_ne_nil e l)
      | cons e' l' =>
        have hnew : ∀ txid, Txid48.new H seed txid = .error .assertion := fun txid => if_pos hseed
        rw [List.foldlM_cons, List.foldlM_cons, hnew, hnew]
        exact Or.inl ⟨.assertion, rfl, rfl⟩
  · have hiff : M.DistinctIds H seed ↔ M'.DistinctIds H seed := (h.map _).nodup_iff
    by_cases hids : M.DistinctIds H seed
    · obtain ⟨pool, hp, hh⟩ := IbltPool.new_ok hseed hids
      obtain ⟨pool', hp', hh'⟩ := IbltPool.new_ok hseed (hiff.mp hids)
      rw [hp, hp']
      exact SameRun.ok (hh.byId.trans ((h.map _).trans hh'.byId.symm))
    · have hclash : ∀ m : Txmap, ¬ m.DistinctIds H seed →
          IbltPool.new H seed m = .error .shiftTooFar := by
        intro m hm
        unfold Txmap.DistinctIds at hm
        rw [← IbltPool.ids_poolEntry] at hm
        rw [IbltPool.new_eq_addAll hseed]
        exact IbltPool.files_empty.addAll_clash List.nodup_nil hm
      rw [hclash M hids, hclash M' fun h' => hids (hiff.mpr h')]
      exact Or.inl ⟨.shiftTooFar, rfl, rfl⟩

theorem recoverBlock_same (H : Hashes) (A : Allocator) {size' : ℕ} (junk : BucketType → Bool)
    (theirs : RawIblt size) (ours : RawIblt size') (seed : U64) {M M' B B' : Txmap}
    (hM : M.entries.Perm M'.entries) (hB : B.entries.Perm B'.entries) :
    SameRun (· = ·) (recoverBlock H A junk theirs ours seed M B)
      (recoverBlock H A junk theirs ours seed M' B') := by
  unfold recoverBlock
  refine SameRun.bind (SameRun.refl (fun _ => rfl) _) fun diff diff' hdiff => ?_
  cases hdiff
  refine SameRun.bind (new_same H seed hM) fun pool pool' hpool => ?_
  refine SameRun.bind (peel_same ⟨rfl, hpool, rfl⟩) fun r r' hr => ?_
  cases hr with
  | none => exact SameRun.ok rfl
  | some hst =>
    show SameRun (· = ·) (finish H A _ B) (finish H A _ B')
    rw [finish_same hst hB]
    exact SameRun.refl (fun _ => rfl) _

/-- **The order of the containers.** Whatever the two tables and the seed are, `recover_block` ends
in the same way in whatever order the mempool and the block hand out their transactions. -/
theorem recoverBlock_perm (H : Hashes) (A : Allocator) {size size' : ℕ} (junk : BucketType → Bool)
    (theirs : RawIblt size) (ours : RawIblt size') (seed : U64) {M M' B B' : Txmap}
    (hM : M.entries.Perm M'.entries) (hB : B.entries.Perm B'.entries) :
    recoverBlock H A junk theirs ours seed M B = recoverBlock H A junk theirs ours seed M' B' :=
  (recoverBlock_same H A junk theirs ours seed hM hB).eq

/-- A txid other than that of `oneTx`. -/
def onesTxid : BitcoinTxid := ⟨List.replicate 32 (BitVec.ofNat 8 1), List.length_replicate⟩

theorem twoTx_nodup : ([(onesTxid, (⟨0, onesTxid, BitcoinTx.blank⟩ : Tx)),
    (zeroBytes 32, ⟨0, zeroBytes 32, BitcoinTx.blank⟩)].map Prod.fst).Nodup := by
  rw [List.map_cons, List.map_cons, List.map_nil, List.nodup_cons, List.mem_singleton]
  refine ⟨fun h => ?_, List.nodup_singleton _⟩
  have hhead := congrArg (fun txid : BitcoinTxid => txid.1.head?) h
  exact absurd hhead (by decide)

/-- Two transactions. -/
def twoTx : Txmap :=
  ⟨[(onesTxid, ⟨0, onesTxid, BitcoinTx.blank⟩), (zeroBytes 32, ⟨0, zeroBytes 32, BitcoinTx.blank⟩)],
    twoTx_nodup⟩

/-- Two transactions, and the same in the other order. -/
theorem recoverBlock_perm_twoTx :
    recoverBlock zeroHashes (fun _ _ => true) (fun _ => true) (blank 1) (blank 1) 1 twoTx oneTx =
      recoverBlock zeroHashes (fun _ _ => true) (fun _ => true) (blank 1) (blank 1) 1
        ⟨twoTx.entries.reverse, ((List.reverse_perm _).map _).nodup_iff.mpr twoTx.nodup⟩ oneTx :=
  recoverBlock_perm zeroHashes (fun _ _ => true) (fun _ => true) (blank 1) (blank 1) 1
    (List.reverse_perm _).symm (List.Perm.refl _)

end BitcoinIblt
