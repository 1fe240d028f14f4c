import BitcoinIblt.SliceLayout
import BitcoinIblt.Tx
import BitcoinIblt.Lib.SignedTable

/-!
# The raw table

`raw_iblt`: a vector of slices and a vector of 16-bit counts. Putting a slice into a bucket XORs it
into the bucket and moves the count by one.

Slices under XOR are an abelian group, and so are the counts; `RawIblt.table` reads a raw table as
a table of sums over that group (`Lib.SignedTable`). Inserting a slice adds `put` of it, removing
it subtracts `put`.
-/

namespace BitcoinIblt

open LittleEndian StickyParser SignedTable

/-! ## XOR of slices -/

/-- `dest[i] ^= src[i]` for the bytes of an array. -/
def xorBytes {n : ℕ} (a b : Bytes n) : Bytes n :=
  ⟨List.zipWith (· ^^^ ·) a.1 b.1, by rw [List.length_zipWith, a.2, b.2, Nat.min_self]⟩

namespace TxSlice

/-- The value-initialised slice. -/
def blank : TxSlice := ⟨0, 0, zeroBytes ibltSize⟩

/-- The bytes of the two structs XORed; `asBytes_xor` says so. -/
def xor (a b : TxSlice) : TxSlice :=
  ⟨a.txidbits ^^^ b.txidbits, a.fragid ^^^ b.fragid, xorBytes a.contents b.contents⟩

end TxSlice

theorem toLE_xor (k x y : ℕ) :
    toLE k (x ^^^ y) = List.zipWith (· ^^^ ·) (toLE k x) (toLE k y) := by
  induction k generalizing x y with
  | zero => rfl
  | succ k ih =>
    have hdiv : (x ^^^ y) / 256 = x / 256 ^^^ y / 256 := Nat.xor_div_two_pow (n := 8)
    have hbyte : BitVec.ofNat 8 (x ^^^ y) = BitVec.ofNat 8 x ^^^ BitVec.ofNat 8 y := by
      apply BitVec.eq_of_toNat_eq
      simp only [BitVec.toNat_ofNat, BitVec.toNat_xor]
      exact Nat.xor_mod_two_pow
    rw [toLE, toLE, toLE, List.zipWith_cons_cons, hdiv, hbyte, ih]

theorem TxSlice.asBytes_xor (a b : TxSlice) :
    (a.xor b).asBytes = List.zipWith (· ^^^ ·) a.asBytes b.asBytes := by
  unfold TxSlice.asBytes TxSlice.xor
  rw [List.zipWith_append (by simp), List.zipWith_append (by simp), BitVec.toNat_xor,
    BitVec.toNat_xor, toLE_xor, toLE_xor]
  rfl

theorem xorBytes_assoc {n : ℕ} (a b c : Bytes n) :
    xorBytes (xorBytes a b) c = xorBytes a (xorBytes b c) := by
  apply Subtype.ext
  apply List.ext_getElem (by rw [(xorBytes _ _).2, (xorBytes _ _).2])
  intro i _ _
  simp [xorBytes, BitVec.xor_assoc]

theorem xorBytes_comm {n : ℕ} (a b : Bytes n) : xorBytes a b = xorBytes b a := by
  apply Subtype.ext
  apply List.ext_getElem (by rw [(xorBytes _ _).2, (xorBytes _ _).2])
  intro i _ _
  simp only [xorBytes, List.getElem_zipWith]
  exact BitVec.xor_comm ..

theorem zero_xorBytes {n : ℕ} (a : Bytes n) : xorBytes (zeroBytes n) a = a := by
  apply Subtype.ext
  apply List.ext_getElem (by rw [(xorBytes _ _).2, a.2])
  intro i _ _
  simp [xorBytes, zeroBytes]

theorem xorBytes_self {n : ℕ} (a : Bytes n) : xorBytes a a = zeroBytes n := by
  apply Subtype.ext
  apply List.ext_getElem (by rw [(xorBytes _ _).2, (zeroBytes n).2])
  intro i _ _
  simp [xorBytes, zeroBytes]

instance : Add TxSlice := ⟨TxSlice.xor⟩

instance : Zero TxSlice := ⟨TxSlice.blank⟩

instance : Neg TxSlice := ⟨id⟩

/-- Slices under XOR. -/
instance : AddCommGroup TxSlice where
  add_assoc a b c := TxSlice.ext (BitVec.xor_assoc ..) (BitVec.xor_assoc ..) (xorBytes_assoc ..)
  zero_add a := TxSlice.ext BitVec.zero_xor BitVec.zero_xor (zero_xorBytes _)
  add_zero a := TxSlice.ext BitVec.xor_zero BitVec.xor_zero
    ((xorBytes_comm ..).trans (zero_xorBytes _))
  add_comm a b := TxSlice.ext (BitVec.xor_comm ..) (BitVec.xor_comm ..) (xorBytes_comm ..)
  neg_add_cancel a := TxSlice.ext BitVec.xor_self BitVec.xor_self (xorBytes_self _)
  nsmul := nsmulRec
  zsmul := zsmulRec

theorem TxSlice.add_eq (a b : TxSlice) : a + b = a.xor b := rfl

theorem TxSlice.neg_eq (a : TxSlice) : -a = a := rfl

theorem TxSlice.zero_eq : (0 : TxSlice) = TxSlice.blank := rfl

theorem TxSlice.sub_eq (a b : TxSlice) : a - b = a.xor b := by
  rw [sub_eq_add_neg, TxSlice.neg_eq, TxSlice.add_eq]

theorem TxSlice.empty_iff (s : TxSlice) : s.empty = true ↔ s = 0 := by
  unfold TxSlice.empty
  simp only [Bool.and_eq_true, decide_eq_true_eq, List.all_eq_true, beq_iff_eq]
  constructor
  · rintro ⟨⟨h₁, h₂⟩, h₃⟩
    exact TxSlice.ext h₁ h₂ (Subtype.ext (List.eq_replicate_iff.mpr ⟨s.contents.2, h₃⟩))
  · rintro rfl
    exact ⟨⟨rfl, rfl⟩, fun b hb => List.eq_of_mem_replicate hb⟩

/-! ## The raw table -/

@[ext] structure RawIblt (size : ℕ) where
  buckets : Vector TxSlice size
  counts : Vector S16 size

namespace RawIblt

variable (H : Hashes) {size : ℕ}

/-- The constructor `raw_iblt(size_t size)`. -/
def blank (size : ℕ) : RawIblt size :=
  ⟨Vector.replicate size TxSlice.blank, Vector.replicate size 0⟩

/-- `NUM_HASHES` -/
def numHashes : ℕ := 3

/-- The bucket that hash `i` sends a slice to. -/
def hashPos (size : ℕ) (s : TxSlice) (i : ℕ) : ℕ :=
  (H.murmurHash3 (BitVec.ofNat 32 i) s.asBytes).toNat % size

def selectBuckets (size : ℕ) (s : TxSlice) : Run (List (Fin size)) :=
  if h : 0 < size then
    .ok ((List.range numHashes).map fun i => ⟨hashPos H size s i, Nat.mod_lt _ h⟩)
  else
    .error .divideByZero

/-- `frob_bucket`: put a slice into one bucket (or take it out, if `dir = -1`). -/
def frobBucket (r : RawIblt size) (n : Fin size) (s : TxSlice) (dir : ℤ) : RawIblt size where
  buckets := r.buckets.set n ((r.buckets.get n).xor s) n.isLt
  counts := r.counts.set n (r.counts.get n + BitVec.ofInt 16 dir) n.isLt

def frobBuckets (r : RawIblt size) (s : TxSlice) (dir : ℤ) : Run (RawIblt size) := do
  let buckets ← selectBuckets H size s
  return buckets.foldl (fun r n => r.frobBucket n s dir) r

def insert (r : RawIblt size) (s : TxSlice) : Run (RawIblt size) := r.frobBuckets H s 1

def remove (r : RawIblt size) (s : TxSlice) : Run (RawIblt size) := r.frobBuckets H s (-1)

/-- The body of the constructors' loops: cut a transaction and insert its slices. -/
def insertTx (seed : U64) (r : RawIblt size) (txid : BitcoinTxid) (btx : BitcoinTx) :
    Run (RawIblt size) := do
  let id ← Txid48.new H seed txid
  let slices ← sliceTx H btx id
  slices.foldlM (fun r s => r.insert H s) r

/-- The constructor from an `unordered_set<const tx *>`, visited in the order of the list. -/
def ofSet (size : ℕ) (seed : U64) (txs : List Tx) : Run (RawIblt size) :=
  txs.foldlM (fun r t => insertTx H seed r (t.btx.txid H) t.btx) (blank size)

/-- The constructor from a `txmap`. -/
def ofTxmap (size : ℕ) (seed : U64) (txs : Txmap) : Run (RawIblt size) :=
  txs.entries.foldlM (fun r t => insertTx H seed r t.1 t.2.btx) (blank size)

/-! ## The table of sums -/

/-- What a cell of the table holds: a count and a slice. -/
abbrev Cell := S16 × TxSlice

/-- The raw table as a table of sums. -/
def table (r : RawIblt size) : Fin size → Cell := fun c => (r.counts.get c, r.buckets.get c)

/-- What one hit of a slice adds to its cell. -/
def unit (s : TxSlice) : Cell := (1, s)

/-- How often a slice hits a bucket. -/
def hits (s : TxSlice) (c : Fin size) : ℕ :=
  ((List.range numHashes).map (hashPos H size s)).count c.val

theorem get_set_self {α : Type} (v : Vector α size) (n : Fin size) (a : α) :
    (v.set n a n.isLt).get n = a :=
  Vector.getElem_set_self n.isLt

theorem get_set_of_ne {α : Type} (v : Vector α size) {n m : Fin size} (a : α) (h : m ≠ n) :
    (v.set n a n.isLt).get m = v.get m :=
  Vector.getElem_set_ne n.isLt m.isLt fun e => h (Fin.ext e.symm)

theorem table_injective {r r' : RawIblt size} (h : r.table = r'.table) : r = r' := by
  apply RawIblt.ext
  · exact Vector.ext fun i hi => congrArg Prod.snd (congrFun h ⟨i, hi⟩)
  · exact Vector.ext fun i hi => congrArg Prod.fst (congrFun h ⟨i, hi⟩)

@[simp] theorem table_blank (size : ℕ) : (blank size).table = 0 := by
  funext c
  simp [table, blank, TxSlice.zero_eq]

theorem table_frobBucket (r : RawIblt size) (n : Fin size) (s : TxSlice) (dir : ℤ) :
    (r.frobBucket n s dir).table = r.table + Pi.single n (BitVec.ofInt 16 dir, s) := by
  funext c
  simp only [table, frobBucket, Pi.add_apply]
  by_cases h : c = n
  · subst h
    simp [TxSlice.add_eq, get_set_self]
  · simp [h, get_set_of_ne _ _ h]

/-- The hits of a slice are what `select_buckets` returns. -/
theorem selectBuckets_eq (hsize : 0 < size) (s : TxSlice) :
    ∃ buckets, selectBuckets H size s = .ok buckets ∧ ∀ c, buckets.count c = hits H s c := by
  refine ⟨_, by rw [selectBuckets, dif_pos hsize], fun c => ?_⟩
  rw [hits, ← List.count_map_of_injective _ Fin.val Fin.val_injective, List.map_map]
  rfl

theorem table_foldl_frobBucket (r : RawIblt size) (buckets : List (Fin size)) (s : TxSlice)
    (dir : ℤ) : (buckets.foldl (fun r n => r.frobBucket n s dir) r).table =
      r.table + fun c => buckets.count c • (BitVec.ofInt 16 dir, s) :=
  foldl_single (fun r n => table_frobBucket r n s dir) buckets r

/-- The slices of a map entry under the seed. -/
def txSlices (seed : U64) (e : BitcoinTxid × Tx) : List TxSlice :=
  slicesOf H e.2.btx (txid48 H seed e.1)

/-- The slices of all entries. -/
def entrySlices (seed : U64) (l : List (BitcoinTxid × Tx)) : List TxSlice :=
  l.flatMap (txSlices H seed)

section Sums

variable {H} (hsize : 0 < size)

include hsize

/-- One call of `frob_buckets` adds the slice, with the count `dir`, once for each hit. -/
theorem frobBuckets_ok (r : RawIblt size) (s : TxSlice) (dir : ℤ) :
    ∃ r', r.frobBuckets H s dir = .ok r' ∧
      r'.table = r.table + put (hits H) (fun s => (BitVec.ofInt 16 dir, s)) s := by
  obtain ⟨buckets, hb, hcount⟩ := selectBuckets_eq H hsize s
  refine ⟨buckets.foldl (fun r n => r.frobBucket n s dir) r, by rw [frobBuckets, hb]; rfl, ?_⟩
  rw [table_foldl_frobBucket]
  congr 1
  funext c
  rw [hcount c, put]

theorem insert_ok (r : RawIblt size) (s : TxSlice) :
    ∃ r', r.insert H s = .ok r' ∧ r'.table = r.table + put (hits H) unit s :=
  frobBuckets_ok hsize r s 1

theorem remove_ok (r : RawIblt size) (s : TxSlice) :
    ∃ r', r.remove H s = .ok r' ∧ r'.table = r.table - put (hits H) unit s := by
  obtain ⟨r', hr', htable⟩ := frobBuckets_ok hsize r s (-1)
  refine ⟨r', hr', ?_⟩
  rw [htable, sub_eq_add_neg, ← put_neg]
  rfl

theorem insertTx_ok {seed : U64} (hseed : seed ≠ 0) (r : RawIblt size) {e : BitcoinTxid × Tx}
    (he : Sliceable e.2.btx) :
    ∃ r', r.insertTx H seed e.1 e.2.btx = .ok r' ∧
      r'.table = r.table + total (hits H) unit (txSlices H seed e) := by
  obtain ⟨r', hr', htable⟩ := foldlM_add (φ := table) (g := put (hits H) unit) (txSlices H seed e)
    (fun s _ r => insert_ok hsize r s) r
  refine ⟨r', ?_, htable⟩
  rw [insertTx, Txid48.new, if_neg hseed]
  show (sliceTx H e.2.btx (txid48 H seed e.1) >>= _) = _
  rw [sliceTx_eq _ he]
  exact hr'

/-- The table of a map is the sum of the slices of its transactions. -/
theorem ofTxmap_ok {seed : U64} (hseed : seed ≠ 0) {txs : Txmap}
    (h : ∀ e ∈ txs.entries, Sliceable e.2.btx) :
    ∃ r, ofTxmap H size seed txs = .ok r ∧
      r.table = total (hits H) unit (entrySlices H seed txs.entries) := by
  obtain ⟨r, hr, htable⟩ := foldlM_add (φ := table)
    (g := fun e => total (hits H) unit (txSlices H seed e)) txs.entries
    (fun e he r => insertTx_ok hsize hseed r (h e he)) (blank size)
  refine ⟨r, hr, ?_⟩
  rw [htable, table_blank, zero_add, entrySlices, total_flatMap]

/-- The constructor from a set of transactions goes by the txid of each. -/
theorem ofSet_ok {seed : U64} (hseed : seed ≠ 0) {txs : List Tx}
    (h : ∀ t ∈ txs, Sliceable t.btx) :
    ∃ r, ofSet H size seed txs = .ok r ∧
      r.table = total (hits H) unit (entrySlices H seed (txs.map fun t => (t.btx.txid H, t))) := by
  have hstep : ∀ t ∈ txs, ∀ r : RawIblt size,
      ∃ r', r.insertTx H seed (t.btx.txid H) t.btx = .ok r' ∧
        r'.table = r.table + total (hits H) unit (txSlices H seed (t.btx.txid H, t)) :=
    fun t ht r => insertTx_ok hsize hseed r (e := (t.btx.txid H, t)) (h t ht)
  obtain ⟨r, hr, htable⟩ := foldlM_add txs hstep (blank size)
  refine ⟨r, hr, ?_⟩
  rw [htable, table_blank, zero_add, entrySlices, total_flatMap, List.map_map]
  rfl

end Sums

/-- Where `headHashes` sends a slice. -/
theorem hits_headHashes {size : ℕ} {s : TxSlice} {seed : U64} {v : U8}
    (h : s.txidbits = txid48 headHashes seed (headTxid v)) (c : Fin size) :
    hits headHashes s c = ([0, 1, 2].map fun i => (i + 3 * v.toNat) % size).count c.val := by
  have hbyte : s.asBytes.headD 0 = v := by
    show BitVec.ofNat 8 s.txidbits.toNat = v
    rw [h, txid48_headTxid]
  have hv := v.isLt
  have hpos : ∀ i < 3, hashPos headHashes size s i = (i + 3 * v.toNat) % size := by
    intro i hi
    show (BitVec.ofNat 32 i + 3 * (s.asBytes.headD 0).setWidth 32).toNat % size = _
    rw [hbyte, BitVec.toNat_add, BitVec.toNat_mul, BitVec.toNat_setWidth_of_le (by decide),
      BitVec.toNat_ofNat]
    congr 1
    simp
    omega
  unfold hits
  congr 1
  exact List.map_congr_left fun i hi => hpos i (List.mem_range.mp hi)

/-- A transaction without a script gives one slice, and that goes to three buckets in a row. -/
theorem entrySlices_headEntry (seed : U64) (v : U8) : ∃ s : TxSlice,
    entrySlices headHashes seed [headEntry (v, 0)] = [s] ∧ ∀ {size : ℕ} (c : Fin size),
      hits headHashes s c = ([0, 1, 2].map fun i => (i + 3 * v.toNat) % size).count c.val := by
  obtain ⟨s, hs, hid⟩ := slicesOf_headBtx_zero headHashes v (txid48 headHashes seed (headTxid v))
  exact ⟨s, (List.append_nil _).trans hs, fun c => hits_headHashes hid c⟩

end RawIblt

end BitcoinIblt
