import BitcoinIblt.BitcoinTx
import BitcoinIblt.Lib.Containers

/-!
# Transactions with a fee, and maps of them

`tx` of `tx.h`, and `txmap` of `io.h`, the map from txids to transactions that blocks and mempools
are.
-/

namespace BitcoinIblt

structure Tx where
  fee : U64
  txid : BitcoinTxid
  btx : BitcoinTx
  deriving DecidableEq

/-- The constructor `tx(u64 bfee, const bitcoin_tx *txin)`. -/
def Tx.new (H : Hashes) (fee : U64) (btx : BitcoinTx) : Tx := ⟨fee, btx.txid H, btx⟩

/-- `fee << 13 / btx->length()`: the division binds tighter than the shift. -/
def Tx.satoshiPerByte (t : Tx) : U64 := t.fee <<< (13 / t.btx.length)

abbrev Txmap := UnorderedMap BitcoinTxid Tx

/-- Every key is the txid of the transaction it maps to. -/
def Txmap.Keyed (m : Txmap) : Prop := ∀ e ∈ m.entries, e.2.txid = e.1

/-- Where both maps have a key, they map it to the same transaction. -/
def Txmap.Agree (m m' : Txmap) : Prop :=
  ∀ k t t', (k, t) ∈ m.entries → (k, t') ∈ m'.entries → t = t'

/-- The entries of `m` whose key is not in `m'`. -/
def Txmap.sdiff (m m' : Txmap) : List (BitcoinTxid × Tx) :=
  m.entries.filter fun e => e.1 ∉ m'.keys

/-- The entries of `m` whose key is in `m'`. -/
def Txmap.inter (m m' : Txmap) : List (BitcoinTxid × Tx) :=
  m.entries.filter fun e => e.1 ∈ m'.keys

theorem Txmap.Agree.symm {m m' : Txmap} (h : Txmap.Agree m m') : Txmap.Agree m' m :=
  fun k t t' ht ht' => (h k t' t ht' ht).symm

theorem Txmap.Agree.mem_inter {m m' : Txmap} (h : Txmap.Agree m m') {e : BitcoinTxid × Tx} :
    e ∈ m.inter m' ↔ e ∈ m.entries ∧ e ∈ m'.entries := by
  obtain ⟨k, t⟩ := e
  rw [inter, List.mem_filter, decide_eq_true_eq]
  refine and_congr_right fun ht =>
    ⟨fun hk => ?_, fun ht' => UnorderedMap.mem_keys_iff.mpr ⟨t, ht'⟩⟩
  obtain ⟨t', ht'⟩ := UnorderedMap.mem_keys_iff.mp hk
  rwa [h k t t' ht ht']

theorem Txmap.inter_nodup (m m' : Txmap) : (m.inter m').Nodup := m.entries_nodup.filter _

/-- Maps that agree have the same entries in common. -/
theorem Txmap.Agree.inter_perm {m m' : Txmap} (h : Txmap.Agree m m') :
    (m.inter m').Perm (m'.inter m) :=
  (List.perm_ext_iff_of_nodup (m.inter_nodup m') (m'.inter_nodup m)).mpr fun _ =>
    h.mem_inter.trans (and_comm.trans h.symm.mem_inter.symm)

theorem Txmap.agree_of_subset {m m' : Txmap} (hsub : ∀ e ∈ m'.entries, e ∈ m.entries) :
    Txmap.Agree m' m :=
  fun _ _ _ ht ht' => UnorderedMap.value_unique (hsub _ ht) ht'

/-- A part has itself in common with the whole. -/
theorem Txmap.inter_perm_of_subset {m m' : Txmap} (hsub : ∀ e ∈ m'.entries, e ∈ m.entries) :
    (m.inter m').Perm m'.entries :=
  (List.perm_ext_iff_of_nodup (m.inter_nodup m') m'.entries_nodup).mpr fun _ =>
    (agree_of_subset hsub).symm.mem_inter.trans
      ⟨fun he => he.2, fun he => ⟨hsub _ he, he⟩⟩

/-- Nothing of a part is outside the whole. -/
theorem Txmap.sdiff_eq_nil {m m' : Txmap} (hsub : ∀ e ∈ m'.entries, e ∈ m.entries) :
    m'.sdiff m = [] := by
  refine List.filter_eq_nil_iff.mpr fun e he => ?_
  have hk : e.1 ∈ m.keys := List.mem_map.mpr ⟨e, hsub e he, rfl⟩
  simp [hk]

theorem Txmap.sdiff_append_inter (m m' : Txmap) :
    (m.sdiff m' ++ m.inter m').Perm m.entries := by
  have h := List.filter_append_perm (fun e : BitcoinTxid × Tx => decide (e.1 ∉ m'.keys)) m.entries
  simpa [sdiff, inter] using h

/-- A map with one transaction, the blank one, whose txid is zero under a hash that is. -/
def oneTx : Txmap := ⟨[(zeroBytes 32, ⟨0, zeroBytes 32, BitcoinTx.blank⟩)], List.nodup_singleton _⟩

theorem mem_oneTx {e : BitcoinTxid × Tx} :
    e ∈ oneTx.entries ↔ e = (zeroBytes 32, ⟨0, zeroBytes 32, BitcoinTx.blank⟩) :=
  List.mem_singleton

theorem oneTx_keyed : oneTx.Keyed := fun e he => by rw [mem_oneTx.mp he]

def headTx (v : U8) (n : U16) : Tx := ⟨0, headTxid v, headBtx v n⟩

/-- Such a transaction with a fee. -/
def paidTx (fee : U64) (n : U16) : Tx := { headTx 0 n with fee := fee }

theorem length_paidTx (fee : U64) (n : U16) :
    (paidTx fee n).btx.length = 62 + varintLen n.toNat + n.toNat :=
  length_headBtx 0 n

def headEntry (p : U8 × U16) : BitcoinTxid × Tx := (headTxid p.1, headTx p.1 p.2)

/-- The map of such transactions, of versions that differ. -/
def headTxs (l : List (U8 × U16)) (h : (l.map Prod.fst).Nodup) : Txmap where
  entries := l.map headEntry
  nodup := by
    have hnodup := h.map headTxid_injective
    rwa [List.map_map] at hnodup ⊢

section HeadTxs

variable {l l' : List (U8 × U16)} {h : (l.map Prod.fst).Nodup} {h' : (l'.map Prod.fst).Nodup}

theorem mem_headTxs {e : BitcoinTxid × Tx} :
    e ∈ (headTxs l h).entries ↔ ∃ p ∈ l, headEntry p = e :=
  List.mem_map

theorem headTxs_keyed (h : (l.map Prod.fst).Nodup) : (headTxs l h).Keyed := by
  intro e he
  obtain ⟨p, -, rfl⟩ := mem_headTxs.mp he
  rfl

theorem headTxid_mem_keys {v : U8} :
    headTxid v ∈ (headTxs l h).keys ↔ v ∈ l.map Prod.fst := by
  unfold headTxs UnorderedMap.keys
  rw [List.map_map, ← List.mem_map_of_injective headTxid_injective, List.map_map]
  rfl

theorem headTxs_sdiff (h : (l.map Prod.fst).Nodup) (h' : (l'.map Prod.fst).Nodup) :
    (headTxs l h).sdiff (headTxs l' h') =
    (l.filter fun p => p.1 ∉ l'.map Prod.fst).map headEntry := by
  have hentries : (headTxs l h).entries = l.map headEntry := rfl
  unfold Txmap.sdiff
  rw [hentries, List.filter_map]
  congr 1
  refine List.filter_congr fun p _ => decide_eq_decide.mpr (not_congr ?_)
  exact headTxid_mem_keys

theorem headTxs_agree (h : (l.map Prod.fst).Nodup) (h' : (l'.map Prod.fst).Nodup)
    (hsame : ∀ p ∈ l, ∀ q ∈ l', p.1 = q.1 → p = q) :
    Txmap.Agree (headTxs l h) (headTxs l' h') := by
  intro k t t' ht ht'
  obtain ⟨p, hp, heq⟩ := mem_headTxs.mp ht
  obtain ⟨q, hq, heq'⟩ := mem_headTxs.mp ht'
  have hv : p.1 = q.1 :=
    headTxid_injective ((congrArg Prod.fst heq).trans (congrArg Prod.fst heq').symm)
  rw [hsame p hp q hq hv] at heq
  exact congrArg Prod.snd (heq.symm.trans heq')

end HeadTxs

/-- A mempool of two transactions. -/
def leftTxs : Txmap := headTxs [(0, 0), (1, 0)] (by decide)

/-- A mempool that has one of them, and another. -/
def rightTxs : Txmap := headTxs [(1, 0), (3, 0)] (by decide)

/-- A mempool that has all three. -/
def allTxs : Txmap := headTxs [(0, 0), (1, 0), (3, 0)] (by decide)

theorem leftTxs_agree : Txmap.Agree leftTxs rightTxs := headTxs_agree _ _ (by simp)

theorem leftTxs_sdiff : leftTxs.sdiff rightTxs = [headEntry (0, 0)] := headTxs_sdiff _ _

theorem rightTxs_sdiff : rightTxs.sdiff leftTxs = [headEntry (3, 0)] := headTxs_sdiff _ _

theorem allTxs_agree : Txmap.Agree allTxs rightTxs := headTxs_agree _ _ (by simp)

theorem allTxs_sdiff : allTxs.sdiff rightTxs = [headEntry (0, 0)] := headTxs_sdiff _ _

theorem rightTxs_sdiff_allTxs : rightTxs.sdiff allTxs = [] := headTxs_sdiff _ _

end BitcoinIblt
