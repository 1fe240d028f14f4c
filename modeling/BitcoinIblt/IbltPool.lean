import BitcoinIblt.TxTree

/-!
# The pool

`ibltpool`: the transactions of a mempool by short id, in a tree and in a map. The constructor
builds both when the short ids are distinct; a clash would send the insertion into the tree past
the last bit of the id.
-/

namespace BitcoinIblt

structure IbltPool where
  txByTxid48 : UnorderedMap Txid48 Tx
  tree : TxTree

namespace IbltPool

variable (H : Hashes)

def add (pool : IbltPool) (id48 : Txid48) (t : Tx) : Run IbltPool := do
  let tree ← pool.tree.insert ⟨id48, t⟩ 0
  return ⟨(pool.txByTxid48.insert id48 t).1, tree⟩

def new (seed : U64) (txByTxid : Txmap) : Run IbltPool :=
  txByTxid.entries.foldlM (fun pool p => do
    let id48 ← Txid48.new H seed p.1
    pool.add id48 p.2) ⟨UnorderedMap.empty, TxTree.new⟩

/-- The pool before the loop of the constructor. -/
def empty : IbltPool := ⟨UnorderedMap.empty, TxTree.new⟩

/-- `add` for one entry after the other. -/
def addAll (pool : IbltPool) (es : List (Txid48 × Tx)) : Run IbltPool :=
  es.foldlM (fun pool e => pool.add e.1 e.2) pool

/-- The depths of the calls of `tx_tree::insert` in `addAll`. -/
def addDepths (pool : IbltPool) : List (Txid48 × Tx) → List ℕ
  | [] => []
  | e :: rest =>
    pool.tree.insertDepths ⟨e.1, e.2⟩ 0 ++
      match pool.add e.1 e.2 with
      | .ok pool => addDepths pool rest
      | .error _ => []

def getTxs (pool : IbltPool) (vec : List Bool) : List Tx := pool.tree.getTxs vec vec

end IbltPool

/-- The short ids of the transactions are distinct. -/
def Txmap.DistinctIds (H : Hashes) (seed : U64) (m : Txmap) : Prop :=
  (m.entries.map fun e => txid48 H seed e.1).Nodup

/-- An entry of a mempool as the pool files it. -/
def poolEntry (H : Hashes) (seed : U64) (e : BitcoinTxid × Tx) : Txid48 × Tx :=
  (txid48 H seed e.1, e.2)

/-- The pool files the transactions of `es` under their ids. -/
structure IbltPool.Files (pool : IbltPool) (es : List (Txid48 × Tx)) : Prop where
  byId : pool.txByTxid48.entries.Perm es
  valid : pool.tree.Valid []
  leaves : pool.tree.leaves.Perm (es.map fun e => ⟨e.1, e.2⟩)

/-- The pool holds the transactions of `entries` by their short ids. -/
structure IbltPool.Holds (H : Hashes) (seed : U64) (pool : IbltPool)
    (entries : List (BitcoinTxid × Tx)) : Prop where
  byId : pool.txByTxid48.entries.Perm (entries.map (poolEntry H seed))
  valid : pool.tree.Valid []
  leaves : pool.tree.leaves.Perm
    (entries.map fun e => ⟨(poolEntry H seed e).1, (poolEntry H seed e).2⟩)

namespace IbltPool

variable {H : Hashes} {seed : U64} {pool : IbltPool}

theorem Files.ne_of_mem_leaves {es : List (Txid48 × Tx)} (h : pool.Files es) {id48 : Txid48}
    (hnew : id48 ∉ es.map Prod.fst) : ∀ l ∈ pool.tree.leaves, l.id48 ≠ id48 := by
  intro l hl heq
  obtain ⟨e, he, rfl⟩ := List.mem_map.mp (h.leaves.mem_iff.mp hl)
  exact hnew (List.mem_map.mpr ⟨e, he, heq⟩)

theorem Files.add {es : List (Txid48 × Tx)} (h : pool.Files es) {e : Txid48 × Tx}
    (hnew : e.1 ∉ es.map Prod.fst) :
    (∃ pool', pool.add e.1 e.2 = .ok pool' ∧ pool'.Files (es ++ [e])) ∧
      ∀ d ∈ pool.tree.insertDepths ⟨e.1, e.2⟩ 0, d < 48 := by
  have hkey : e.1 ∉ pool.txByTxid48.entries.map Prod.fst := fun hk =>
    hnew ((h.byId.map Prod.fst).mem_iff.mp hk)
  obtain ⟨⟨tree, htree, hvalid, hleaves⟩, hdepths⟩ :=
    TxTree.insert_spec h.valid ⟨e.1, e.2⟩ rfl (by simp) (h.ne_of_mem_leaves hnew)
  rw [List.length_nil] at htree
  refine ⟨⟨⟨(pool.txByTxid48.insert e.1 e.2).1, tree⟩,
    by rw [IbltPool.add, htree]; rfl, ?_, hvalid, ?_⟩, hdepths⟩
  · rw [UnorderedMap.insert, dif_neg hkey]
    exact (h.byId.cons e).trans (List.perm_append_singleton _ _).symm
  · rw [List.map_append]
    exact (hleaves.trans (h.leaves.cons _)).trans (List.perm_append_singleton _ _).symm

theorem Files.add_clash {es : List (Txid48 × Tx)} (h : pool.Files es) {e : Txid48 × Tx}
    (hold : e.1 ∈ es.map Prod.fst) : pool.add e.1 e.2 = .error .shiftTooFar := by
  obtain ⟨e', he', heq⟩ := List.mem_map.mp hold
  have hleaf := h.leaves.mem_iff.mpr (List.mem_map.mpr ⟨e', he', rfl⟩)
  have hinsert : pool.tree.insert ⟨e.1, e.2⟩ 0 = .error .shiftTooFar :=
    TxTree.insert_clash h.valid rfl hleaf heq
  rw [IbltPool.add, hinsert]
  rfl

/-- Entries with new ids are added at depths below 48. -/
theorem Files.addAll {es rest : List (Txid48 × Tx)} (h : pool.Files es)
    (hids : ((es ++ rest).map Prod.fst).Nodup) :
    (∃ pool', pool.addAll rest = .ok pool' ∧ pool'.Files (es ++ rest)) ∧
      ∀ d ∈ pool.addDepths rest, d < 48 := by
  induction rest generalizing pool es with
  | nil => exact ⟨⟨pool, rfl, by rwa [List.append_nil]⟩, fun d hd => absurd hd List.not_mem_nil⟩
  | cons e rest ih =>
    have hnew : e.1 ∉ es.map Prod.fst := by
      rw [List.map_append] at hids
      intro hmem
      exact (List.nodup_append.mp hids).2.2 _ hmem _ List.mem_cons_self rfl
    have hassoc : es ++ e :: rest = (es ++ [e]) ++ rest := by simp
    rw [hassoc] at hids ⊢
    obtain ⟨⟨pool₁, hadd, h₁⟩, hfirst⟩ := h.add hnew
    obtain ⟨⟨pool₂, hall, h₂⟩, hdepths⟩ := ih h₁ hids
    refine ⟨⟨pool₂, ?_, h₂⟩, ?_⟩
    · rw [IbltPool.addAll, List.foldlM_cons, hadd]
      exact hall
    · intro d hd
      simp only [addDepths, hadd, List.mem_append] at hd
      rcases hd with hd | hd
      · exact hfirst d hd
      · exact hdepths d hd

/-- The first id that is already there stops the additions. -/
theorem Files.addAll_clash {es rest : List (Txid48 × Tx)} (h : pool.Files es)
    (hes : (es.map Prod.fst).Nodup) (hids : ¬((es ++ rest).map Prod.fst).Nodup) :
    pool.addAll rest = .error .shiftTooFar := by
  induction rest generalizing pool es with
  | nil =>
    rw [List.append_nil] at hids
    exact absurd hes hids
  | cons e rest ih =>
    rw [IbltPool.addAll, List.foldlM_cons]
    by_cases hold : e.1 ∈ es.map Prod.fst
    · rw [h.add_clash hold]
      rfl
    · obtain ⟨⟨pool₁, hadd, h₁⟩, -⟩ := h.add hold
      rw [hadd]
      refine ih h₁ ?_ (by rwa [List.append_assoc])
      rw [List.map_append, List.nodup_append_comm]
      exact List.nodup_cons.mpr ⟨hold, hes⟩

theorem files_empty : IbltPool.empty.Files [] :=
  ⟨List.Perm.refl _, TxTree.valid_new _, List.Perm.refl _⟩

theorem new_eq_addAll (hseed : seed ≠ 0) (m : Txmap) :
    IbltPool.new H seed m = IbltPool.empty.addAll (m.entries.map (poolEntry H seed)) := by
  unfold IbltPool.new IbltPool.addAll
  rw [List.foldlM_map]
  congr 1
  funext pool e
  rw [Txid48.new, if_neg hseed]
  rfl

theorem ids_poolEntry (H : Hashes) (seed : U64) (m : Txmap) :
    (m.entries.map (poolEntry H seed)).map Prod.fst =
      m.entries.map fun e => txid48 H seed e.1 := by
  rw [List.map_map]
  rfl

/-- The constructor returns when the short ids are distinct. -/
theorem new_ok (hseed : seed ≠ 0) {m : Txmap} (hids : m.DistinctIds H seed) :
    ∃ pool, IbltPool.new H seed m = .ok pool ∧ pool.Holds H seed m.entries := by
  have hids' : (([] ++ m.entries.map (poolEntry H seed)).map Prod.fst).Nodup := by
    rw [List.nil_append, List.map_map]
    exact hids
  obtain ⟨⟨pool, hpool, h⟩, -⟩ := files_empty.addAll hids'
  refine ⟨pool, by rw [new_eq_addAll hseed, hpool], h.byId, h.valid, ?_⟩
  have hleaves := h.leaves
  rwa [List.nil_append, List.map_map] at hleaves

/-- An empty mempool gives an empty pool, under any seed. -/
theorem new_nil {m : Txmap} (hm : m.entries = []) :
    IbltPool.new H seed m = .ok IbltPool.empty := by
  unfold IbltPool.new
  rw [hm]
  rfl

/-- The constructor returns under the seed zero, too, if it has no id to make. -/
theorem new_ok_or_nil {m : Txmap} (hseed : seed ≠ 0 ∨ m.entries = [])
    (hids : m.DistinctIds H seed) :
    ∃ pool, IbltPool.new H seed m = .ok pool ∧ pool.Holds H seed m.entries := by
  rcases hseed with hseed | hnil
  · exact new_ok hseed hids
  · refine ⟨IbltPool.empty, new_nil hnil, ?_⟩
    rw [hnil]
    exact ⟨files_empty.byId, files_empty.valid, files_empty.leaves⟩

/-- `get_txs` returns the transactions whose short id starts with the bits of `vec`. -/
theorem Holds.mem_getTxs {entries : List (BitcoinTxid × Tx)} (h : pool.Holds H seed entries)
    {vec : List Bool} {t : Tx} :
    t ∈ pool.getTxs vec ↔
      ∃ e ∈ entries, (txid48 H seed e.1).matches vec = true ∧ e.2 = t := by
  have hget := TxTree.mem_getTxs h.valid vec (t := t)
  rw [List.nil_append] at hget
  rw [getTxs, hget]
  constructor
  · rintro ⟨l, hl, hm, rfl⟩
    obtain ⟨e, he, rfl⟩ := List.mem_map.mp (h.leaves.mem_iff.mp hl)
    exact ⟨e, he, hm, rfl⟩
  · rintro ⟨e, he, hm, rfl⟩
    exact ⟨_, h.leaves.mem_iff.mpr (List.mem_map.mpr ⟨e, he, rfl⟩), hm, rfl⟩

/-- The prefix that `get_unique_bitid` returns for an entry is the prefix of no other. -/
theorem Holds.uniqueBitid {entries : List (BitcoinTxid × Tx)} (h : pool.Holds H seed entries)
    {e : BitcoinTxid × Tx} (he : e ∈ entries) :
    ∃ v, pool.tree.getUniqueBitid (txid48 H seed e.1) = .ok v ∧ 0 < v.length ∧ v.length ≤ 48 ∧
      ∀ e' ∈ entries, (txid48 H seed e'.1).matches v = true ↔
        txid48 H seed e'.1 = txid48 H seed e.1 := by
  have hleaf : ∀ e ∈ entries, (⟨txid48 H seed e.1, e.2⟩ : TxWithId48) ∈ pool.tree.leaves :=
    fun e he => h.leaves.mem_iff.mpr (List.mem_map.mpr ⟨e, he, rfl⟩)
  obtain ⟨v, hv, hlt, hle, huniq⟩ := TxTree.getUniqueBitid_ok h.valid (hleaf e he)
  exact ⟨v, hv, hlt, hle, fun e' he' => huniq _ (hleaf e' he')⟩

end IbltPool

theorem headTxs_distinctIds {l : List (U8 × U16)} (h : (l.map Prod.fst).Nodup) (seed : U64) :
    (headTxs l h).DistinctIds headHashes seed := by
  have hinj : Function.Injective fun v : U8 => txid48 headHashes seed (headTxid v) := by
    intro v w heq
    have hv := congrArg (fun id : Txid48 => BitVec.ofNat 8 id.toNat) heq
    simp only [txid48_headTxid] at hv
    exact hv
  have hids := h.map hinj
  rw [List.map_map] at hids
  unfold Txmap.DistinctIds headTxs
  rw [List.map_map]
  exact hids

end BitcoinIblt
