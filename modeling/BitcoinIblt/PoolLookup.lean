import BitcoinIblt.IbltPool

/-!
# Lookups in a pool, and the depth of its tree

A pool built from entries with distinct short ids answers `get_txs` as a scan over the entries
would, and `get_unique_bitid` with the shortest prefix that tells an id from the others
(`Distinguishes`). Its insertions stay above depth 48. When two ids coincide, the constructor does
not come back: the tree grows until the bits of a word are used up.
-/

namespace BitcoinIblt

/-- `v` is a prefix of `id48`, lowest bit first, and of no other of `ids`. -/
def Txid48.Distinguishes (ids : List Txid48) (id48 : Txid48) (v : List Bool) : Prop :=
  id48.matches v = true ∧ ∀ id ∈ ids, id ≠ id48 → id.matches v = false

namespace IbltPool

variable {pool : IbltPool} {es : List (Txid48 × Tx)}

theorem empty_addAll_ok (hids : (es.map Prod.fst).Nodup) :
    ∃ pool, IbltPool.empty.addAll es = .ok pool ∧ pool.Files es := by
  have hids' : (([] ++ es).map Prod.fst).Nodup := hids
  obtain ⟨⟨pool, hpool, h⟩, -⟩ := files_empty.addAll hids'
  exact ⟨pool, hpool, h⟩

/-! ## Prefix lookup -/

theorem Files.getTxs_perm (h : pool.Files es) (vec : List Bool) :
    (pool.getTxs vec).Perm ((es.filter fun e => e.1.matches vec).map Prod.snd) := by
  have hget := TxTree.getTxs_eq h.valid vec
  rw [List.nil_append] at hget
  rw [getTxs, hget]
  have hleaves := (h.leaves.filter fun l => l.id48.matches vec).map TxWithId48.t
  rwa [List.filter_map, List.map_map] at hleaves

/-- `get_txs` agrees with a scan over the entries, in whatever order they were added. -/
theorem getTxs_scan {es : List (Txid48 × Tx)} (hids : (es.map Prod.fst).Nodup) :
    ∃ pool, IbltPool.empty.addAll es = .ok pool ∧ ∀ vec : List Bool, vec.length ≤ 48 →
      (pool.getTxs vec).Perm ((es.filter fun e => e.1.matches vec).map Prod.snd) := by
  obtain ⟨pool, hpool, h⟩ := empty_addAll_ok hids
  exact ⟨pool, hpool, fun vec _ => h.getTxs_perm vec⟩

/-! ## Unique prefixes -/

theorem Files.mem_ids (h : pool.Files es) {id48 : Txid48} :
    id48 ∈ es.map Prod.fst ↔ ∃ l ∈ pool.tree.leaves, l.id48 = id48 := by
  constructor
  · intro hid
    obtain ⟨e, he, rfl⟩ := List.mem_map.mp hid
    exact ⟨_, h.leaves.mem_iff.mpr (List.mem_map.mpr ⟨e, he, rfl⟩), rfl⟩
  · rintro ⟨l, hl, rfl⟩
    obtain ⟨e, he, rfl⟩ := List.mem_map.mp (h.leaves.mem_iff.mp hl)
    exact List.mem_map.mpr ⟨e, he, rfl⟩

theorem Files.distinguishes_iff (h : pool.Files es) {id48 : Txid48} {v : List Bool} :
    id48.Distinguishes (es.map Prod.fst) v ↔ id48.matches v = true ∧
      ∀ l ∈ pool.tree.leaves, l.id48 ≠ id48 → l.id48.matches v = false := by
  refine and_congr_right fun _ => ⟨fun hother l hl => ?_, fun hother id hid => ?_⟩
  · exact hother l.id48 (h.mem_ids.mpr ⟨l, hl, rfl⟩)
  · obtain ⟨l, hl, rfl⟩ := h.mem_ids.mp hid
    exact hother l hl

theorem Files.getUniqueBitid_least (h : pool.Files es) {id48 : Txid48}
    (hid : id48 ∈ es.map Prod.fst) :
    ∃ v, pool.tree.getUniqueBitid id48 = .ok v ∧ 1 ≤ v.length ∧ v.length ≤ 48 ∧
      id48.Distinguishes (es.map Prod.fst) v ∧
      ∀ w, w ≠ [] → id48.Distinguishes (es.map Prod.fst) w → v.length ≤ w.length := by
  obtain ⟨l, hl, rfl⟩ := h.mem_ids.mp hid
  obtain ⟨v, hv, hpos, hle, huniq⟩ := TxTree.getUniqueBitid_ok h.valid hl
  refine ⟨v, hv, hpos, hle, h.distinguishes_iff.mpr ⟨(huniq l hl).mpr rfl, ?_⟩, ?_⟩
  · intro l' hl' hne
    exact Bool.eq_false_iff.mpr fun hm => hne ((huniq l' hl').mp hm)
  · intro w hw hdist
    obtain ⟨hm, hother⟩ := h.distinguishes_iff.mp hdist
    by_contra hlt
    -- a shorter prefix would lead to a node, and so to another id
    obtain ⟨l', hl', hm', hne⟩ := TxTree.uniqueBitidFrom_shortest h.valid hl hv hm
      (List.length_pos_of_ne_nil hw) (by omega)
    rw [hother l' hl' hne] at hm'
    cases hm'

/-- `get_unique_bitid` returns the shortest prefix that tells an id from the others. -/
theorem getUniqueBitid_shortest {es : List (Txid48 × Tx)} (hids : (es.map Prod.fst).Nodup) :
    ∃ pool, IbltPool.empty.addAll es = .ok pool ∧ ∀ id48 ∈ es.map Prod.fst,
      ∃ v, pool.tree.getUniqueBitid id48 = .ok v ∧ 1 ≤ v.length ∧ v.length ≤ 48 ∧
        id48.Distinguishes (es.map Prod.fst) v ∧
        ∀ w, w ≠ [] → id48.Distinguishes (es.map Prod.fst) w → v.length ≤ w.length := by
  obtain ⟨pool, hpool, h⟩ := empty_addAll_ok hids
  exact ⟨pool, hpool, fun id48 hid => h.getUniqueBitid_least hid⟩

/-- Two ids that agree on all bits but the last. -/
def twoEntries : List (Txid48 × Tx) :=
  [(0, ⟨0, zeroBytes 32, BitcoinTx.blank⟩), (0x800000000000, ⟨1, zeroBytes 32, BitcoinTx.blank⟩)]

theorem getTxs_scan_twoEntries :
    (twoEntries.map Prod.fst).Nodup ∧ ∃ pool, IbltPool.empty.addAll twoEntries = .ok pool ∧
      ∀ vec : List Bool, vec.length ≤ 48 →
        (pool.getTxs vec).Perm ((twoEntries.filter fun e => e.1.matches vec).map Prod.snd) :=
  ⟨by decide, getTxs_scan (by decide)⟩

theorem getUniqueBitid_shortest_twoEntries :
    (twoEntries.map Prod.fst).Nodup ∧ ∃ pool, IbltPool.empty.addAll twoEntries = .ok pool ∧
      ∀ id48 ∈ twoEntries.map Prod.fst,
        ∃ v, pool.tree.getUniqueBitid id48 = .ok v ∧ 1 ≤ v.length ∧ v.length ≤ 48 ∧
          id48.Distinguishes (twoEntries.map Prod.fst) v ∧
          ∀ w, w ≠ [] → id48.Distinguishes (twoEntries.map Prod.fst) w → v.length ≤ w.length :=
  ⟨by decide, getUniqueBitid_shortest (by decide)⟩

/-! ## Absent ids -/

/-- `get_unique_bitid` says that it has not found the id. -/
def ReportsAbsent (tree : TxTree) (id48 : Txid48) : Prop :=
  tree.getUniqueBitid id48 = .error (.invalidArgument "tx not found")

/-- For an id that was not added, `get_unique_bitid` never gets as far as its exception: it
dereferences NULL, or it fails the assertion that the leaf it ends on is the one it looks for. -/
theorem getUniqueBitid_absent {es : List (Txid48 × Tx)} (hids : (es.map Prod.fst).Nodup)
    {id48 : Txid48} (habsent : id48 ∉ es.map Prod.fst) :
    ∃ pool, IbltPool.empty.addAll es = .ok pool ∧
      (pool.tree.getUniqueBitid id48 = .error .nullPointer ∨
        pool.tree.getUniqueBitid id48 = .error .assertion) ∧
      ¬ReportsAbsent pool.tree id48 := by
  obtain ⟨pool, hpool, h⟩ := empty_addAll_ok hids
  have hother : ∀ l ∈ pool.tree.leaves, l.id48 ≠ id48 := fun l hl heq =>
    habsent (h.mem_ids.mpr ⟨l, hl, heq⟩)
  have hfails := TxTree.uniqueBitidFrom_absent h.valid (by simp) hother
  refine ⟨pool, hpool, hfails, fun hreports => ?_⟩
  unfold ReportsAbsent TxTree.getUniqueBitid at hreports
  rcases hfails with hnull | hassert
  · rw [hnull] at hreports
    cases hreports
  · rw [hassert] at hreports
    cases hreports

/-- A single entry. -/
def oneEntry : List (Txid48 × Tx) := [(0, ⟨0, zeroBytes 32, BitcoinTx.blank⟩)]

/-- The two ids agree on all bits but the last. -/
theorem getUniqueBitid_absent_oneEntry : (oneEntry.map Prod.fst).Nodup ∧
    (0x800000000000 : Txid48) ∉ oneEntry.map Prod.fst ∧
    ∃ pool, IbltPool.empty.addAll oneEntry = .ok pool ∧
      ¬ReportsAbsent pool.tree 0x800000000000 := by
  have hids : (oneEntry.map Prod.fst).Nodup := by decide
  have habsent : (0x800000000000 : Txid48) ∉ oneEntry.map Prod.fst := by decide
  obtain ⟨pool, hpool, -, hnot⟩ := getUniqueBitid_absent hids habsent
  exact ⟨hids, habsent, pool, hpool, hnot⟩

/-- In the empty tree both sides are missing. -/
theorem getUniqueBitid_empty : IbltPool.empty.tree.getUniqueBitid 0 = .error .nullPointer ∧
    ¬ReportsAbsent IbltPool.empty.tree 0 := by
  have hnull : IbltPool.empty.tree.getUniqueBitid 0 = .error .nullPointer := by
    rw [TxTree.getUniqueBitid, TxTree.uniqueBitidFrom]
    rfl
  refine ⟨hnull, fun hreports => ?_⟩
  unfold ReportsAbsent at hreports
  rw [hnull] at hreports
  cases hreports

/-! ## The constructor -/

variable (H : Hashes) (seed : U64)

/-- The constructor returns, and its insertions stay above depth 48, so that an id is never shifted
by 48 bits or more. -/
structure Terminates (m : Txmap) : Prop where
  returns : ∃ pool, IbltPool.new H seed m = .ok pool
  depths : ∀ d ∈ IbltPool.empty.addDepths (m.entries.map (poolEntry H seed)), d < 48

/-- The constructor comes back just when the short ids are distinct. -/
theorem terminates_iff (hseed : seed ≠ 0) (m : Txmap) :
    Terminates H seed m ↔ m.DistinctIds H seed := by
  constructor
  · intro h
    obtain ⟨pool, hpool⟩ := h.returns
    by_contra hids
    unfold Txmap.DistinctIds at hids
    rw [← ids_poolEntry] at hids
    rw [new_eq_addAll hseed, files_empty.addAll_clash List.nodup_nil hids] at hpool
    cases hpool
  · intro hids
    unfold Txmap.DistinctIds at hids
    rw [← ids_poolEntry] at hids
    obtain ⟨⟨pool, hpool, -⟩, hdepths⟩ := files_empty.addAll hids
    exact ⟨⟨pool, by rw [new_eq_addAll hseed, hpool]⟩, hdepths⟩

/-- A mempool of two transactions. -/
def twoTx : Txmap :=
  ⟨[(zeroBytes 32, ⟨0, zeroBytes 32, BitcoinTx.blank⟩),
    (⟨List.replicate 32 1, List.length_replicate⟩,
      ⟨0, ⟨List.replicate 32 1, List.length_replicate⟩, BitcoinTx.blank⟩)], by decide⟩

theorem terminates_leftTxs : leftTxs.size = 2 ∧ Terminates headHashes 1 leftTxs :=
  ⟨rfl, (terminates_iff headHashes 1 (by decide) leftTxs).mpr (headTxs_distinctIds _ 1)⟩

theorem not_terminates_twoTx :
    IbltPool.new zeroHashes 1 twoTx = .error .shiftTooFar ∧ ¬Terminates zeroHashes 1 twoTx := by
  have hnew : IbltPool.new zeroHashes 1 twoTx = .error .shiftTooFar := by
    have hids : ¬(([] ++ twoTx.entries.map (poolEntry zeroHashes 1)).map Prod.fst).Nodup := by
      decide
    rw [new_eq_addAll (by decide), files_empty.addAll_clash List.nodup_nil hids]
  refine ⟨hnew, fun h => ?_⟩
  obtain ⟨pool, hpool⟩ := h.returns
  rw [hnew] at hpool
  cases hpool

end IbltPool

end BitcoinIblt
