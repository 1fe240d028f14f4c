import BitcoinIblt.Basic
import BitcoinIblt.Lib.SignedTable

/-!
# The Monte-Carlo extractor

`utils/monte-carlo.c` finds out how many buckets a table of `M` elements needs. One experiment puts
the numbers below `M` into a table, three hits each, and takes them out again as long as a bucket
has a single hit. It goes on from the bucket that it used last, but that decides nothing: the
experiment succeeds just when the numbers can be peeled off in some order (`addAndExtract_iff`).

`find_singleton` returns the bucket as an `int`. From bucket `2 ^ 31` on that is negative, and taken
for a failure.
-/

namespace BitcoinIblt

namespace MonteCarlo

open Peeling SignedTable

abbrev S32 := BitVec 32

/-! ## The code -/

/-- `hash_pos`, where `hash val base` is `hash_u32(&val, 1, base)`: one of all buckets, or, with
subtables, one of a third of them. -/
def hashPos (hash : U32 → U32 → U32) (useSubtables : Bool) {buckets : ℕ} (hb : 0 < buckets)
    (val round : U32) (iter : Fin 3) : Fin buckets :=
  let h := (hash val (BitVec.ofNat 32 iter + round)).toNat
  let subsize := buckets / 3
  -- "Ignore subsize for pathological buckets < 3 case"
  if hs : useSubtables = false ∨ subsize = 0 then ⟨h % buckets, Nat.mod_lt h hb⟩
  else
    have hpos : 0 < subsize := Nat.pos_of_ne_zero fun e => hs (Or.inr e)
    have hle : subsize * 3 ≤ buckets := Nat.div_mul_le_self buckets 3
    match iter with
    | 0 => ⟨h % subsize, by
      have := Nat.mod_lt h hpos
      omega⟩
    | 1 => ⟨subsize + h % subsize, by
      have := Nat.mod_lt h hpos
      omega⟩
    | 2 => ⟨subsize * 2 + h % (buckets - subsize * 2), by
      have := Nat.mod_lt h (show 0 < buckets - subsize * 2 by omega)
      omega⟩

/-- `arr` and `counts`. -/
@[ext] structure Table (buckets : ℕ) where
  arr : Fin buckets → U32
  counts : Fin buckets → U32

variable {buckets : ℕ}

/-- What the two calls of `memset` leave. -/
def Table.zero (buckets : ℕ) : Table buckets := ⟨fun _ => 0, fun _ => 0⟩

/-- `counts[pos]++` and `arr[pos] ^= val` -/
def Table.add (t : Table buckets) (val : U32) (pos : Fin buckets) : Table buckets :=
  ⟨Function.update t.arr pos (t.arr pos ^^^ val), Function.update t.counts pos (t.counts pos + 1)⟩

/-- `assert(counts[pos])`, `counts[pos]--` and `arr[pos] ^= val` -/
def Table.remove (val : U32) (t : Table buckets) (pos : Fin buckets) : Run (Table buckets) :=
  if t.counts pos = 0 then .error .assertion
  else .ok ⟨Function.update t.arr pos (t.arr pos ^^^ val),
    Function.update t.counts pos (t.counts pos - 1)⟩

/-- The first bucket with one hit from `prev` on, then from the start; -1 if there is none. -/
def findSingleton (counts : Fin buckets → U32) (prev : Fin buckets) : S32 :=
  let order := (List.finRange buckets).drop prev ++ (List.finRange buckets).take prev
  match order.find? fun i => counts i = 1 with
  | some i => BitVec.ofNat 32 i
  | none => -1

/-- What an experiment returns, the table it leaves, and the values it took out. -/
structure Extraction (buckets : ℕ) where
  result : Bool
  table : Table buckets
  values : List U32

section Code

variable (pos : U32 → U32 → Fin 3 → Fin buckets)

/-- The three places of a value. -/
def places (round val : U32) : List (Fin buckets) := (List.finRange 3).map (pos val round)

def addElement (round : U32) (t : Table buckets) (val : U32) : Table buckets :=
  (places pos round val).foldl (fun t p => t.add val p) t

def removeElement (round : U32) (t : Table buckets) (val : U32) : Run (Table buckets) :=
  (places pos round val).foldlM (Table.remove val) t

/-- The second loop of `add_and_extract`, with `n` turns left. -/
def extractLoop (round : U32) : ℕ → Fin buckets → Table buckets → Run (Extraction buckets)
  | 0, _, t => .ok ⟨true, t, []⟩
  | n + 1, prev, t =>
    let bucket := findSingleton t.counts prev
    if bucket.slt 0 then .ok ⟨false, t, []⟩
    else if h : bucket.toNat < buckets then do
      let val := t.arr ⟨bucket.toNat, h⟩
      let t ← removeElement pos round t val
      let r ← extractLoop round n ⟨bucket.toNat, h⟩ t
      return { r with values := val :: r.values }
    else .error .assertion

/-- The values of an experiment. -/
def elementList (elements : ℕ) : List U32 := (List.range elements).map (BitVec.ofNat 32)

def addAndExtract (hb : 0 < buckets) (elements : ℕ) (round : U32) : Run (Extraction buckets) :=
  extractLoop pos round elements ⟨0, hb⟩
    ((elementList elements).foldl (addElement pos round) (Table.zero buckets))

end Code

/-! ## The table of sums -/

/-- Words under XOR. -/
def XorWord := U32

namespace XorWord

instance : Add XorWord := ⟨fun a b => BitVec.xor a b⟩

instance : Zero XorWord := ⟨(0 : U32)⟩

instance : Neg XorWord := ⟨id⟩

instance : AddCommGroup XorWord where
  add_assoc a b c := BitVec.xor_assoc ..
  zero_add a := BitVec.zero_xor
  add_zero a := BitVec.xor_zero
  add_comm a b := BitVec.xor_comm ..
  neg_add_cancel a := BitVec.xor_self
  nsmul := nsmulRec
  zsmul := zsmulRec

end XorWord

/-- A count and a sum. -/
abbrev Cell := U32 × XorWord

namespace Table

/-- The table as a table of sums. -/
def sums (t : Table buckets) : Fin buckets → Cell := fun c => (t.counts c, t.arr c)

/-- What one hit of a value adds to its cell. -/
def unit (val : U32) : Cell := (1, val)

theorem sums_injective {t t' : Table buckets} (h : t.sums = t'.sums) : t = t' :=
  Table.ext (funext fun c => congrArg Prod.snd (congrFun h c))
    (funext fun c => congrArg Prod.fst (congrFun h c))

theorem sums_zero : (Table.zero buckets).sums = 0 := rfl

theorem sums_add (t : Table buckets) (val : U32) (p : Fin buckets) :
    (t.add val p).sums = t.sums + Pi.single p (unit val) := by
  funext c
  by_cases h : c = p
  · subst h
    simp only [sums, add, Function.update_self, Pi.add_apply, Pi.single_eq_same]
    rfl
  · simp only [sums, add, Function.update_of_ne h, Pi.add_apply, Pi.single_eq_of_ne h, add_zero]

theorem remove_ok {t : Table buckets} {p : Fin buckets} (h : t.counts p ≠ 0) (val : U32) :
    ∃ t', t.remove val p = .ok t' ∧ t'.counts = Function.update t.counts p (t.counts p - 1) ∧
      t'.sums = t.sums - Pi.single p (unit val) := by
  refine ⟨_, if_neg h, rfl, ?_⟩
  funext c
  by_cases hc : c = p
  · subst hc
    simp only [sums, Function.update_self, Pi.sub_apply, Pi.single_eq_same]
    rfl
  · simp only [sums, Function.update_of_ne hc, Pi.sub_apply, Pi.single_eq_of_ne hc, sub_zero]

end Table

section Sums

variable (pos : U32 → U32 → Fin 3 → Fin buckets) (round : U32)

/-- How often a value hits a bucket. -/
def hits (val : U32) (c : Fin buckets) : ℕ := (places pos round val).count c

theorem hits_le (val : U32) (c : Fin buckets) : hits pos round val c ≤ 3 := by
  have hlen : (places pos round val).length = 3 := by simp [places]
  exact hlen ▸ List.count_le_length

theorem load_le (l : List U32) (c : Fin buckets) : load (hits pos round) l c ≤ 3 * l.length := by
  induction l with
  | nil => exact Nat.zero_le _
  | cons v l ih =>
    have hv := hits_le pos round v c
    rw [load_cons, List.length_cons]
    omega

theorem sums_addElement (t : Table buckets) (val : U32) :
    (addElement pos round t val).sums = t.sums + put (hits pos round) Table.unit val :=
  foldl_single (fun t p => t.sums_add val p) (places pos round val) t

theorem sums_foldl_addElement (l : List U32) (t : Table buckets) :
    (l.foldl (addElement pos round) t).sums = t.sums + total (hits pos round) Table.unit l := by
  induction l generalizing t with
  | nil => simp
  | cons v l ih => rw [List.foldl_cons, ih, sums_addElement, total_cons, add_assoc]

/-- The hits of a value can be taken back as long as they are all counted. -/
theorem foldlM_remove_ok (val : U32) {ps : List (Fin buckets)} {t : Table buckets}
    (h : ∀ c, ps.count c ≤ (t.counts c).toNat) :
    ∃ t', ps.foldlM (Table.remove val) t = .ok t' ∧
      t'.sums = t.sums - fun c => ps.count c • Table.unit val := by
  induction ps generalizing t with
  | nil => exact ⟨t, rfl, by funext c; simp⟩
  | cons p ps ih =>
    have hp : ps.count p + 1 ≤ (t.counts p).toNat := by
      have hcount := h p
      rwa [List.count_cons_self] at hcount
    have hne : t.counts p ≠ 0 := fun h0 => by
      rw [h0] at hp
      exact Nat.not_succ_le_zero _ hp
    obtain ⟨t₁, h₁, hc₁, hs₁⟩ := Table.remove_ok hne val
    have hrest : ∀ c, ps.count c ≤ (t₁.counts c).toNat := by
      intro c
      rw [hc₁]
      by_cases hc : c = p
      · subst hc
        have hone : (1 : U32) ≤ t.counts c := BitVec.le_def.mpr (Nat.le_of_add_left_le hp)
        rw [Function.update_self, BitVec.toNat_sub_of_le hone]
        exact Nat.le_sub_of_add_le hp
      · rw [Function.update_of_ne hc, ← List.count_cons_of_ne (Ne.symm hc)]
        exact h c
    obtain ⟨t₂, h₂, hs₂⟩ := ih hrest
    refine ⟨t₂, ?_, ?_⟩
    · rw [List.foldlM_cons, h₁]
      exact h₂
    · rw [hs₂, hs₁, sub_sub, single_add_count]

/-- The table holds the values of `l`, and its counts have not wrapped around. -/
structure Holds (t : Table buckets) (l : List U32) : Prop where
  sums : t.sums = total (hits pos round) Table.unit l
  small : 3 * l.length < 2 ^ 32

variable {pos round} {t : Table buckets} {l : List U32}

theorem Holds.counts (h : Holds pos round t l) (c : Fin buckets) :
    (t.counts c).toNat = load (hits pos round) l c := by
  have hcount : t.counts c = (load (hits pos round) l c : U32) := by
    have hone : ∀ v, AddMonoidHom.fst U32 XorWord (Table.unit v) = 1 := fun _ => rfl
    rw [← hom_total_apply (AddMonoidHom.fst U32 XorWord) hone, ← h.sums]
    rfl
  have hload := load_le pos round l c
  have hsmall := h.small
  rw [hcount, BitVec.natCast_eq_ofNat, BitVec.toNat_ofNat, Nat.mod_eq_of_lt (by omega)]

theorem Holds.counts_eq_one_iff (h : Holds pos round t l) {c : Fin buckets} :
    t.counts c = 1 ↔ load (hits pos round) l c = 1 := by
  rw [← h.counts c]
  exact ⟨fun hc => congrArg BitVec.toNat hc, fun hc => BitVec.eq_of_toNat_eq hc⟩

/-- A bucket that counts one hit has the value that hits it. -/
theorem Holds.singleton (h : Holds pos round t l) {c : Fin buckets} (hc : t.counts c = 1) :
    t.arr c ∈ l ∧ Alone (hits pos round) l (t.arr c) := by
  have hload := h.counts_eq_one_iff.mp hc
  obtain ⟨v, hv, hhit, hval⟩ : ∃ v ∈ l, 0 < hits pos round v c ∧
      total (hits pos round) Table.unit l c = Table.unit v := total_apply_of_load_eq_one hload
  have harr : t.arr c = v := by
    rw [← h.sums] at hval
    exact congrArg Prod.snd hval
  rw [harr]
  exact ⟨hv, c, hhit, hload⟩

/-- A value can be taken out once it is there. -/
theorem Holds.removeElement (h : Holds pos round t l) {v : U32} (hv : v ∈ l) :
    ∃ t', removeElement pos round t v = .ok t' ∧ Holds pos round t' (l.erase v) := by
  have hcounts : ∀ c, (places pos round v).count c ≤ (t.counts c).toNat :=
    fun c => (hits_le_load hv c).trans (h.counts c).ge
  obtain ⟨t', ht', hs'⟩ := foldlM_remove_ok v hcounts
  refine ⟨t', ht', ?_, ?_⟩
  · rw [hs', h.sums, total_perm _ _ (List.perm_cons_erase hv), total_cons]
    exact add_sub_cancel_left _ _
  · have hsmall := h.small
    have hlen := List.length_erase_of_mem hv
    omega

theorem holds_start (hsmall : 3 * l.length < 2 ^ 32) :
    Holds pos round (l.foldl (addElement pos round) (Table.zero buckets)) l :=
  ⟨by rw [sums_foldl_addElement, Table.sums_zero, zero_add], hsmall⟩

end Sums

/-! ## The search -/

/-- The search finds a bucket with one hit if there is one, wherever it starts. -/
theorem findSingleton_cases (counts : Fin buckets → U32) (prev : Fin buckets) :
    (∃ c, counts c = 1 ∧ findSingleton counts prev = BitVec.ofNat 32 c) ∨
      findSingleton counts prev = -1 ∧ ∀ c, counts c ≠ 1 := by
  unfold findSingleton
  simp only
  cases hf : ((List.finRange buckets).drop prev ++ (List.finRange buckets).take prev).find?
      fun i => counts i = 1 with
  | none =>
    refine Or.inr ⟨rfl, fun c => ?_⟩
    have hmem : c ∈ (List.finRange buckets).drop prev ++ (List.finRange buckets).take prev := by
      rw [List.mem_append, or_comm, ← List.mem_append, List.take_append_drop]
      exact List.mem_finRange c
    simpa using List.find?_eq_none.mp hf c hmem
  | some c => exact Or.inl ⟨c, by simpa using List.find?_some hf, rfl⟩

theorem slt_zero_of_le {n : ℕ} (h : n < 2 ^ 31) : (BitVec.ofNat 32 n).slt 0 = false := by
  show (BitVec.ofNat 32 n).slt 0#32 = false
  rw [BitVec.slt_zero_eq_msb, BitVec.msb_eq_decide, BitVec.toNat_ofNat,
    Nat.mod_eq_of_lt (by omega)]
  exact decide_eq_false (by omega)

/-! ## The experiment -/

section Experiment

variable {pos : U32 → U32 → Fin 3 → Fin buckets} {round : U32}

/-- What an experiment on the values `l` should do: take out each value at most once, and only while
it is there, and succeed just when the values can be peeled, leaving nothing. -/
structure Extraction.Correct (pos : U32 → U32 → Fin 3 → Fin buckets) (round : U32) (l : List U32)
    (r : Extraction buckets) : Prop where
  nodup : r.values.Nodup
  mem : ∀ v ∈ r.values, v ∈ l
  result_iff : r.result = true ↔ Peelable (hits pos round) l
  empty : r.result = true → r.table = Table.zero buckets

/-- Without a bucket with one hit the loop gives up, and rightly so. -/
theorem correct_of_stuck {t : Table buckets} {l : List U32} (h : Holds pos round t l) (hl : l ≠ [])
    (hstuck : ∀ c, t.counts c ≠ 1) : Extraction.Correct pos round l ⟨false, t, []⟩ where
  nodup := List.nodup_nil
  mem _ hv := absurd hv List.not_mem_nil
  result_iff := by
    refine iff_of_false (by simp) fun hpeel => ?_
    obtain ⟨v, -, c, -, hload⟩ := hpeel.exists_alone hl
    exact hstuck c (h.counts_eq_one_iff.mpr hload)
  empty hr := by cases hr

/-- What is right for the rest is right with the value that was taken out first. -/
theorem Extraction.Correct.cons {l : List U32} (hnodup : l.Nodup) {v : U32} (hv : v ∈ l)
    (hpeel : Alone (hits pos round) l v) {r : Extraction buckets}
    (h : Extraction.Correct pos round (l.erase v) r) :
    Extraction.Correct pos round l { r with values := v :: r.values } where
  nodup := List.nodup_cons.mpr ⟨fun hmem => hnodup.not_mem_erase (h.mem v hmem), h.nodup⟩
  mem := List.forall_mem_cons.mpr ⟨hv, fun w hw => List.mem_of_mem_erase (h.mem w hw)⟩
  result_iff := h.result_iff.trans (peelable_iff_of_alone hpeel (List.perm_cons_erase hv)).symm
  empty := h.empty

/-- The loop is right whatever bucket it starts from. -/
theorem extractLoop_ok (hle : buckets ≤ 2 ^ 31) {l : List U32} (hnodup : l.Nodup)
    {t : Table buckets} (h : Holds pos round t l) (prev : Fin buckets) :
    ∃ r, extractLoop pos round l.length prev t = .ok r ∧ r.Correct pos round l := by
  induction hn : l.length generalizing l t prev with
  | zero =>
    obtain rfl := List.length_eq_zero_iff.mp hn
    have hzero : t = Table.zero buckets := Table.sums_injective h.sums
    exact ⟨_, rfl, List.nodup_nil, fun v hv => absurd hv List.not_mem_nil,
      iff_of_true rfl Peelable.nil, fun _ => hzero⟩
  | succ n ih =>
    have hl : l ≠ [] := fun e => by simp [e] at hn
    rw [extractLoop]
    rcases findSingleton_cases t.counts prev with ⟨c, hc, hfind⟩ | ⟨hfind, hstuck⟩
    · have hlt : c.val < 2 ^ 31 := c.isLt.trans_le hle
      have hval : (BitVec.ofNat 32 c.val).toNat = c.val := by
        rw [BitVec.toNat_ofNat, Nat.mod_eq_of_lt (by omega)]
      obtain ⟨hv, halone⟩ := h.singleton hc
      obtain ⟨t', ht', hholds⟩ := h.removeElement hv
      have hlen : (l.erase (t.arr c)).length = n := by
        rw [List.length_erase_of_mem hv, hn]
        rfl
      obtain ⟨r, hr, hcorrect⟩ := ih (hnodup.erase _) hholds c hlen
      refine ⟨_, ?_, hcorrect.cons hnodup hv halone⟩
      simp only [hfind, slt_zero_of_le hlt, hval, c.isLt, dif_pos, Bool.false_eq_true, if_false]
      rw [ht', ok_bind, hr, ok_bind]
      rfl
    · refine ⟨_, ?_, correct_of_stuck h hl hstuck⟩
      rw [hfind]
      rfl

theorem length_elementList (n : ℕ) : (elementList n).length = n := by simp [elementList]

theorem nodup_elementList {n : ℕ} (h : n < 2 ^ 32) : (elementList n).Nodup := by
  refine List.nodup_range.map_on fun i hi j hj heq => ?_
  have hval := congrArg BitVec.toNat heq
  rw [List.mem_range] at hi hj
  rwa [BitVec.toNat_ofNat, BitVec.toNat_ofNat, Nat.mod_eq_of_lt (by omega),
    Nat.mod_eq_of_lt (by omega)] at hval

/-- **The experiment.** With at most `2 ^ 31` buckets, whatever the hash function, it returns true
just when the values can be put in an order in which each has a bucket to itself when its turn
comes. No assertion fails, no value is taken out that is not there, and on success the table is
empty. -/
theorem addAndExtract_iff (pos : U32 → U32 → Fin 3 → Fin buckets) (hb : 0 < buckets)
    (hle : buckets ≤ 2 ^ 31) {elements : ℕ} (he : elements < 2 ^ 30) (round : U32) :
    ∃ r, addAndExtract pos hb elements round = .ok r ∧
      r.Correct pos round (elementList elements) := by
  have hlen := length_elementList elements
  have hholds : Holds pos round ((elementList elements).foldl (addElement pos round)
      (Table.zero buckets)) (elementList elements) := holds_start (by omega)
  have hloop := extractLoop_ok hle (nodup_elementList (by omega)) hholds ⟨0, hb⟩
  rwa [hlen] at hloop

/-- `max` in `main`, which the numbers of buckets that are tried stay below. -/
def maxBuckets (elements : ℕ) : ℕ :=
  if elements < 20 then 6 * elements
  else if elements < 50 then 3 * elements
  else 2 * elements

/-- So many buckets have indices that an `int` holds. -/
theorem maxBuckets_le {elements : ℕ} (he : elements < 2 ^ 30) : maxBuckets elements ≤ 2 ^ 31 := by
  unfold maxBuckets
  split_ifs <;> omega

end Experiment

/-- Two values, and five buckets in which a hash function spreads them. -/
example : (addAndExtract (hashPos (fun val base => 2 * val + base) false (show 0 < 5 by decide))
    (by decide) 2 0).toOption.map Extraction.result = some true := by decide

theorem addAndExtract_spread : 0 < 5 ∧ 5 ≤ 2 ^ 31 ∧ 2 < 2 ^ 30 ∧
    ∃ r, addAndExtract (hashPos (fun val base => 2 * val + base) false (show 0 < 5 by decide))
        (show 0 < 5 by decide) 2 0 = .ok r ∧
      r.Correct (hashPos (fun val base => 2 * val + base) false (show 0 < 5 by decide)) 0
        (elementList 2) :=
  ⟨by decide, by norm_num, by norm_num,
    addAndExtract_iff _ (by decide) (by norm_num) (by norm_num) 0⟩

/-! ## Too many buckets -/

/-- Every value hits the last of `2 ^ 31 + 1` buckets, and the first one twice. -/
def farPos (_ _ : U32) (iter : Fin 3) : Fin (2 ^ 31 + 1) :=
  if iter = 0 then Fin.last (2 ^ 31) else 0

theorem hits_farPos (round val : U32) (c : Fin (2 ^ 31 + 1)) :
    hits farPos round val c = 1 ↔ c = Fin.last (2 ^ 31) := by
  have hplaces : places farPos round val = [Fin.last (2 ^ 31), 0, 0] := rfl
  rw [hits, hplaces]
  constructor
  · intro h
    by_contra hne
    rw [List.count_cons_of_ne (Ne.symm hne)] at h
    by_cases h0 : c = 0
    · subst h0
      simp at h
    · rw [List.count_cons_of_ne (Ne.symm h0), List.count_cons_of_ne (Ne.symm h0)] at h
      cases h
  · rintro rfl
    have hne : (0 : Fin (2 ^ 31 + 1)) ≠ Fin.last (2 ^ 31) := (Fin.last_pos).ne
    rw [List.count_cons_self, List.count_cons_of_ne hne, List.count_cons_of_ne hne, List.count_nil]

/-- The one value is alone in bucket `2 ^ 31`, whose index is negative as an `int`. -/
theorem addAndExtract_farPos :
    (∃ r, addAndExtract farPos (Nat.succ_pos _) 1 0 = .ok r ∧ r.result = false) ∧
      Peelable (hits farPos 0) (elementList 1) := by
  constructor
  · have hholds : Holds farPos 0 ((elementList 1).foldl (addElement farPos 0) (Table.zero _))
        (elementList 1) := holds_start (by norm_num [elementList])
    rw [addAndExtract]
    generalize (elementList 1).foldl (addElement farPos 0) (Table.zero _) = t at hholds ⊢
    rw [extractLoop]
    rcases findSingleton_cases t.counts ⟨0, Nat.succ_pos _⟩ with ⟨c, hc, hfind⟩ | ⟨hfind, -⟩
    · have hload := hholds.counts_eq_one_iff.mp hc
      have hc : c = Fin.last (2 ^ 31) := (hits_farPos 0 0 c).mp hload
      rw [hfind, hc]
      exact ⟨_, rfl, rfl⟩
    · rw [hfind]
      exact ⟨_, rfl, rfl⟩
  · have hhit := (hits_farPos 0 0 _).mpr rfl
    exact ⟨elementList 1, List.Perm.refl _,
      ⟨Fin.last (2 ^ 31), Nat.one_pos.trans_eq hhit.symm, hhit⟩, trivial⟩

end MonteCarlo

end BitcoinIblt
