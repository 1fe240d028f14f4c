import BitcoinIblt.Iblt

/-!
# Todo lists in step with the table

`Sync H d out`: every bucket is on the todo list its count says, in the set its contents say, and
nowhere else; the buckets of `out` are on none. Frobbing a bucket goes through three states: it is
taken off its list, its contents change while it is on no list, it is put on a list again. So a
frob takes a bucket out of `out` and nothing else (`Sync.frobOne`), and only `removeTodo` puts
buckets there. It may do so because it tells the list that it is no longer complete (`Armed`).
-/

namespace BitcoinIblt

/-! ## One todo list -/

namespace IbltTodo

variable {β : Type} [LinearOrder β] {l : IbltTodo β}

theorem add_ok {fragoff : U16} {n : β} (h : n ∉ l.todo (getTodo fragoff)) :
    ∃ l', l.add fragoff n = .ok l' ∧ l'.manuallyRemoved = l.manuallyRemoved ∧
      ∀ m cls, m ∈ l'.todo cls ↔ m ∈ l.todo cls ∨ (m = n ∧ cls = getTodo fragoff) := by
  refine ⟨⟨Function.update l.todo (getTodo fragoff) (insert n (l.todo (getTodo fragoff))),
    l.manuallyRemoved⟩, by rw [add, if_neg h], rfl, fun m cls => ?_⟩
  simp only [Function.update_apply]
  split_ifs with hc
  · subst hc
    rw [Finset.mem_insert, or_comm]
    simp
  · simp [hc]

theorem del_ok {fragoff : U16} {n : β} (manual : Bool)
    (h : n ∈ l.todo (getTodo fragoff) ∨ l.manuallyRemoved = true) :
    ∃ l', l.del fragoff n manual = .ok l' ∧
      l'.manuallyRemoved = (manual || l.manuallyRemoved) ∧
      ∀ m cls, m ∈ l'.todo cls ↔ m ∈ l.todo cls ∧ ¬ (m = n ∧ cls = getTodo fragoff) := by
  refine ⟨_, by rw [del, if_neg (by simp only [not_and_or, not_not]; simpa using h)], ?_, ?_⟩
  · cases manual <;> rfl
  · intro m cls
    simp only [Function.update_apply]
    split_ifs with hc
    · subst hc
      rw [Finset.mem_erase]
      simp [and_comm]
    · simp [hc]

/-- Either no set has an element, or `next` returns the least one of the first set that has. -/
theorem nextTodo_cases (l : IbltTodo β) :
    (l.nextTodo = noTodo ∧ ∀ cls, l.todo cls = ∅) ∨
      ∃ (cls : Fin numTodo) (n : β), l.nextTodo = cls ∧ l.next l.nextTodo = .ok n ∧
        n ∈ l.todo cls ∧ ∀ m cls', m ∈ l.todo cls' → cls < cls' ∨ cls = cls' ∧ n ≤ m := by
  unfold nextTodo
  cases hf : (List.finRange numTodo).find? fun i => l.todo i ≠ ∅ with
  | none =>
    refine Or.inl ⟨rfl, fun cls => ?_⟩
    simpa using List.find?_eq_none.mp hf cls (List.mem_finRange cls)
  | some i =>
    obtain ⟨hi, j, hj, hji, hbefore⟩ := List.find?_eq_some_iff_getElem.mp hf
    have hne : (l.todo i).Nonempty := by simpa [Finset.nonempty_iff_ne_empty] using hi
    refine Or.inr ⟨i, (l.todo i).min' hne, rfl, by rw [next, dif_pos i.isLt, dif_pos hne],
      Finset.min'_mem _ hne, fun m cls' hm => ?_⟩
    rcases lt_trichotomy cls' i with hlt | heq | hgt
    · -- a set before the one found is empty
      rw [List.getElem_finRange] at hji
      have hempty := hbefore cls'.val (by rw [← hji] at hlt; exact hlt)
      rw [List.getElem_finRange] at hempty
      simp only [ne_eq, decide_not, Bool.not_not, decide_eq_true_eq] at hempty
      rw [show cls' = Fin.cast (List.length_finRange) ⟨cls'.val, _⟩ from rfl, hempty] at hm
      exact absurd hm (Finset.notMem_empty m)
    · subst heq
      exact Or.inr ⟨rfl, Finset.min'_le _ m hm⟩
    · exact Or.inl hgt

/-- No set before the one found has an element. -/
theorem nextTodo_le {m : β} {cls : Fin numTodo} (h : m ∈ l.todo cls) : l.nextTodo ≤ cls := by
  rcases l.nextTodo_cases with ⟨-, hempty⟩ | ⟨cls', n, hcls, -, -, hleast⟩
  · rw [hempty] at h
    exact absurd h (Finset.notMem_empty m)
  · rw [hcls]
    rcases hleast m cls h with hlt | ⟨rfl, -⟩
    · exact (Fin.lt_def.mp hlt).le
    · exact le_rfl

theorem numTodo_lt_noTodo : numTodo < noTodo := by decide

end IbltTodo

/-! ## The lists and the table -/

namespace Iblt

variable (H : Hashes) {size : ℕ}

/-- Every bucket outside `out` is listed exactly where its contents say, those of `out` nowhere. -/
def Sync (d : Iblt size) (out : Finset (Fin size)) : Prop :=
  ∀ t, t ≠ .NEITHER → ∀ n cls, n ∈ (d.todo t).todo cls ↔
    d.typeAt n = t ∧ cls = getTodo (d.fragoffAt H n) ∧ n ∉ out

/-- The lists that buckets of `out` should be on do not insist on finding them. -/
def Armed (d : Iblt size) (out : Finset (Fin size)) : Prop :=
  ∀ n ∈ out, d.typeAt n ≠ .NEITHER → (d.todo (d.typeAt n)).manuallyRemoved = true

variable {H} {d : Iblt size} {out : Finset (Fin size)}

theorem bucketType_eq_ours {c : S16} : bucketType c = .OURS ↔ c = -1 := by
  unfold bucketType
  split_ifs <;> simp_all

theorem bucketType_eq_theirs {c : S16} : bucketType c = .THEIRS ↔ c = 1 := by
  unfold bucketType
  split_ifs with h₁ h₂
  · exact iff_of_false (by simp) fun h => absurd (h₁.symm.trans h) (by decide)
  · exact iff_of_true rfl h₂
  · exact iff_of_false (by simp) h₂

theorem addTodo_of_neither {n : Fin size} (h : d.typeAt n = .NEITHER) :
    d.addTodoIfSingleton H n = .ok d := by
  unfold addTodoIfSingleton
  rw [h]

theorem addTodo_of_ne {n : Fin size} (h : d.typeAt n ≠ .NEITHER) :
    d.addTodoIfSingleton H n = (do
      let l ← (d.todo (d.typeAt n)).add (d.fragoffAt H n) n
      return { d with todo := Function.update d.todo (d.typeAt n) l }) := by
  unfold addTodoIfSingleton
  cases ht : d.typeAt n
  · rfl
  · rfl
  · exact absurd ht h

theorem removeTodo_of_neither {n : Fin size} (h : d.typeAt n = .NEITHER) :
    d.removeTodoIfSingleton H n = .ok d := by
  unfold removeTodoIfSingleton
  rw [h]

theorem removeTodo_of_ne {n : Fin size} (h : d.typeAt n ≠ .NEITHER) :
    d.removeTodoIfSingleton H n = (do
      let l ← (d.todo (d.typeAt n)).del (d.fragoffAt H n) n false
      return { d with todo := Function.update d.todo (d.typeAt n) l }) := by
  unfold removeTodoIfSingleton
  cases ht : d.typeAt n
  · rfl
  · rfl
  · exact absurd ht h

/-- Giving the list of bucket `n` a new value that differs at `n` only. -/
theorem Sync.setList (h : Sync H d out) {n : Fin size} {l : IbltTodo (Fin size)}
    {out' : Finset (Fin size)} (ht : d.typeAt n ≠ .NEITHER)
    (hother : ∀ m, m ≠ n → ∀ cls, m ∈ l.todo cls ↔ m ∈ (d.todo (d.typeAt n)).todo cls)
    (hn : ∀ cls, n ∈ l.todo cls ↔ cls = getTodo (d.fragoffAt H n) ∧ n ∉ out')
    (hout : ∀ m, m ≠ n → (m ∈ out' ↔ m ∈ out)) :
    Sync H { d with todo := Function.update d.todo (d.typeAt n) l } out' := by
  intro t hne m cls
  show m ∈ (Function.update d.todo (d.typeAt n) l t).todo cls ↔
    d.typeAt m = t ∧ cls = getTodo (d.fragoffAt H m) ∧ m ∉ out'
  by_cases hmn : m = n
  · subst hmn
    by_cases he : t = d.typeAt m
    · subst he
      rw [Function.update_self, hn]
      simp
    · rw [Function.update_of_ne he, h t hne]
      exact iff_of_false (fun h' => he h'.1.symm) fun h' => he h'.1.symm
  · rw [hout m hmn, ← h t hne]
    by_cases he : t = d.typeAt n
    · subst he
      rw [Function.update_self, hother m hmn]
    · rw [Function.update_of_ne he]

/-- Bucket `n` belongs to no list, so it does not matter whether it is in `out`. -/
theorem Sync.of_neither (h : Sync H d out) {n : Fin size} {out' : Finset (Fin size)}
    (ht : d.typeAt n = .NEITHER) (hout : ∀ m, m ≠ n → (m ∈ out' ↔ m ∈ out)) : Sync H d out' := by
  intro t hne m cls
  rw [h t hne]
  by_cases hmn : m = n
  · subst hmn
    rw [ht]
    exact iff_of_false (fun h' => hne h'.1.symm) fun h' => hne h'.1.symm
  · rw [hout m hmn]

theorem manuallyRemoved_setList {t : BucketType} {l : IbltTodo (Fin size)}
    (h : l.manuallyRemoved = (d.todo t).manuallyRemoved) (t' : BucketType) :
    (Function.update d.todo t l t').manuallyRemoved = (d.todo t').manuallyRemoved := by
  by_cases he : t' = t
  · subst he
    rw [Function.update_self, h]
  · rw [Function.update_of_ne he]

/-- Listing a bucket that is on no list. -/
theorem Sync.add (h : Sync H d out) {n : Fin size} (hn : n ∈ out) :
    ∃ d', d.addTodoIfSingleton H n = .ok d' ∧ d'.riblt = d.riblt ∧
      (∀ t, (d'.todo t).manuallyRemoved = (d.todo t).manuallyRemoved) ∧
      Sync H d' (out.erase n) := by
  have hout : ∀ m, m ≠ n → (m ∈ out.erase n ↔ m ∈ out) := fun m hmn => by simp [hmn]
  by_cases ht : d.typeAt n = .NEITHER
  · exact ⟨d, addTodo_of_neither ht, rfl, fun _ => rfl, h.of_neither ht hout⟩
  · have hnot : ∀ cls, n ∉ (d.todo (d.typeAt n)).todo cls := fun cls hmem =>
      ((h _ ht n cls).mp hmem).2.2 hn
    obtain ⟨l, hl, hflag, hmem⟩ := IbltTodo.add_ok (hnot (getTodo (d.fragoffAt H n)))
    refine ⟨⟨Function.update d.todo (d.typeAt n) l, d.riblt⟩, by rw [addTodo_of_ne ht, hl]; rfl,
      rfl, manuallyRemoved_setList hflag, h.setList ht (fun m hmn cls => ?_) (fun cls => ?_) hout⟩
    · rw [hmem]
      simp [hmn]
    · rw [hmem]
      simp [hnot cls]

/-- Taking a bucket off its list, if it is there. -/
theorem Sync.remove (h : Sync H d out) (ha : Armed d out) (n : Fin size) :
    ∃ d', d.removeTodoIfSingleton H n = .ok d' ∧ d'.riblt = d.riblt ∧
      (∀ t, (d'.todo t).manuallyRemoved = (d.todo t).manuallyRemoved) ∧
      Sync H d' (insert n out) := by
  have hout : ∀ m, m ≠ n → (m ∈ insert n out ↔ m ∈ out) := fun m hmn => by simp [hmn]
  by_cases ht : d.typeAt n = .NEITHER
  · exact ⟨d, removeTodo_of_neither ht, rfl, fun _ => rfl, h.of_neither ht hout⟩
  · have hdel : n ∈ (d.todo (d.typeAt n)).todo (getTodo (d.fragoffAt H n)) ∨
        (d.todo (d.typeAt n)).manuallyRemoved = true := by
      by_cases hn : n ∈ out
      · exact Or.inr (ha n hn ht)
      · exact Or.inl ((h _ ht n _).mpr ⟨rfl, rfl, hn⟩)
    obtain ⟨l, hl, hflag, hmem⟩ := IbltTodo.del_ok false hdel
    refine ⟨⟨Function.update d.todo (d.typeAt n) l, d.riblt⟩,
      by rw [removeTodo_of_ne ht, hl]; rfl, rfl, manuallyRemoved_setList hflag,
      h.setList ht (fun m hmn cls => ?_) (fun cls => ?_) hout⟩
    · rw [hmem]
      simp [hmn]
    · rw [hmem, h _ ht]
      simp only [Finset.mem_insert, true_or, not_true_eq_false, and_false, iff_false, not_and]
      rintro ⟨-, hcls, -⟩ hne
      exact hne trivial hcls

/-- Changing a bucket that is on no list. -/
theorem Sync.setBucket (h : Sync H d out) {n : Fin size} (hn : n ∈ out) {r : RawIblt size}
    (hcount : ∀ m, m ≠ n → r.counts.get m = d.riblt.counts.get m)
    (hbucket : ∀ m, m ≠ n → r.buckets.get m = d.riblt.buckets.get m) :
    Sync H { d with riblt := r } out := by
  intro t hne m cls
  by_cases hmn : m = n
  · subst hmn
    have := h t hne m cls
    simp_all
  · have htype : typeAt { d with riblt := r } m = d.typeAt m := congrArg bucketType (hcount m hmn)
    have hoff : fragoffAt H { d with riblt := r } m = d.fragoffAt H m :=
      congrArg (TxSlice.fragoff H) (hbucket m hmn)
    rw [htype, hoff]
    exact h t hne m cls

/-- The lists are in step with the table outside `out`, and allow for the buckets of `out`. -/
structure InStep (H : Hashes) (d : Iblt size) (out : Finset (Fin size)) : Prop where
  sync : Sync H d out
  armed : Armed d out

/-! ## Frobbing -/

/-- A frobbed bucket is back on its list, whatever took it off. -/
theorem InStep.frobOne (h : InStep H d out) (s : TxSlice) (dir : ℤ) (n : Fin size) :
    ∃ d', d.frobOne H s dir n = .ok d' ∧ d'.riblt = d.riblt.frobBucket n s dir ∧
      InStep H d' (out.erase n) := by
  obtain ⟨d₁, h₁, hr₁, hflag₁, hs₁⟩ := h.sync.remove h.armed n
  have hcount : ∀ m, m ≠ n →
      (d₁.riblt.frobBucket n s dir).counts.get m = d₁.riblt.counts.get m := fun m hmn =>
    RawIblt.get_set_of_ne _ _ hmn
  have hbucket : ∀ m, m ≠ n →
      (d₁.riblt.frobBucket n s dir).buckets.get m = d₁.riblt.buckets.get m := fun m hmn =>
    RawIblt.get_set_of_ne _ _ hmn
  obtain ⟨d₂, h₂, hr₂, hflag₂, hs₂⟩ :=
    (hs₁.setBucket (Finset.mem_insert_self n out) hcount hbucket).add (Finset.mem_insert_self n out)
  rw [Finset.erase_insert_eq_erase] at hs₂
  refine ⟨d₂, ?_, by rw [hr₂, hr₁], hs₂, fun m hm hne => ?_⟩
  · rw [Iblt.frobOne, h₁]
    exact h₂
  · obtain ⟨hmn, hmo⟩ := Finset.mem_erase.mp hm
    have htype : d₂.typeAt m = d.typeAt m := by
      unfold typeAt
      rw [hr₂, hcount m hmn, hr₁]
    rw [htype, hflag₂, hflag₁]
    exact h.armed m hmo (htype ▸ hne)

theorem InStep.foldlM_frobOne (h : InStep H d out) (s : TxSlice) (dir : ℤ)
    (buckets : List (Fin size)) :
    ∃ d', buckets.foldlM (Iblt.frobOne H s dir) d = .ok d' ∧
      d'.riblt = buckets.foldl (fun r n => r.frobBucket n s dir) d.riblt ∧
      InStep H d' (out \ buckets.toFinset) := by
  induction buckets generalizing d out with
  | nil => exact ⟨d, rfl, rfl, by simpa using h⟩
  | cons n buckets ih =>
    obtain ⟨d₁, h₁, hr₁, hs₁⟩ := h.frobOne s dir n
    obtain ⟨d₂, h₂, hr₂, hs₂⟩ := ih hs₁
    refine ⟨d₂, ?_, by rw [hr₂, hr₁, List.foldl_cons], ?_⟩
    · rw [List.foldlM_cons, h₁]
      exact h₂
    · rwa [List.toFinset_cons, Finset.sdiff_insert, ← Finset.erase_sdiff_comm]

section Hits

open SignedTable RawIblt

variable (hsize : 0 < size)

include hsize

/-- `frob_buckets` changes the table as the raw table's does, and lists every bucket it hits. -/
theorem InStep.frobBuckets (h : InStep H d out) (s : TxSlice) (dir : ℤ) :
    ∃ d', d.frobBuckets H s dir = .ok d' ∧
      d'.riblt.table =
        d.riblt.table + put (hits H) (fun s => (BitVec.ofInt 16 dir, s)) s ∧
      InStep H d' (out.filter fun n => hits H s n = 0) := by
  obtain ⟨buckets, hb, hcount⟩ := selectBuckets_eq H hsize s
  obtain ⟨d', hd', hr', hs'⟩ := h.foldlM_frobOne s dir buckets
  refine ⟨d', ?_, ?_, ?_⟩
  · rw [Iblt.frobBuckets, hb]
    exact hd'
  · rw [hr', table_foldl_frobBucket]
    congr 1
    funext c
    rw [hcount c, put]
  · convert hs' using 1
    ext n
    rw [Finset.mem_filter, Finset.mem_sdiff, List.mem_toFinset, ← hcount n, List.count_eq_zero]

theorem InStep.removeTheirSlice (h : InStep H d out) (s : TxSlice) :
    ∃ d', d.removeTheirSlice H s = .ok d' ∧
      d'.riblt.table = d.riblt.table - put (hits H) unit s ∧
      InStep H d' (out.filter fun n => hits H s n = 0) := by
  obtain ⟨d', hd', htable, hs'⟩ := h.frobBuckets hsize s (-1)
  refine ⟨d', hd', ?_, hs'⟩
  rw [htable, sub_eq_add_neg, ← put_neg]
  rfl

theorem InStep.foldlM_frobBuckets (h : InStep H d out) (v : List TxSlice) :
    ∃ d', v.foldlM (fun d s => d.frobBuckets H s 1) d = .ok d' ∧
      d'.riblt.table = d.riblt.table + total (hits H) unit v ∧
      InStep H d' (out.filter fun n => ∀ s ∈ v, hits H s n = 0) := by
  induction v generalizing d out with
  | nil => exact ⟨d, rfl, by simp, by simpa using h⟩
  | cons s v ih =>
    obtain ⟨d₁, h₁, htable₁, hs₁⟩ := h.frobBuckets hsize s 1
    obtain ⟨d₂, h₂, htable₂, hs₂⟩ := ih hs₁
    refine ⟨d₂, ?_, ?_, ?_⟩
    · rw [List.foldlM_cons, h₁]
      exact h₂
    · rw [htable₂, htable₁, total_cons, add_assoc]
      rfl
    · rw [Finset.filter_filter] at hs₂
      simpa using hs₂

/-- `remove_our_tx` puts the slices of the transaction back into the table. -/
theorem InStep.removeOurTx (h : InStep H d out) {btx : BitcoinTx} (id : Txid48)
    (hbtx : Sliceable btx) :
    ∃ d', d.removeOurTx H btx id = .ok (d', (slicesOf H btx id).length) ∧
      d'.riblt.table = d.riblt.table + total (hits H) unit (slicesOf H btx id) ∧
      InStep H d' (out.filter fun n => ∀ s ∈ slicesOf H btx id, hits H s n = 0) := by
  obtain ⟨d', hd', htable, hs'⟩ := h.foldlM_frobBuckets hsize (slicesOf H btx id)
  refine ⟨d', ?_, htable, hs'⟩
  rw [Iblt.removeOurTx, sliceTx_eq id hbtx]
  show ((slicesOf H btx id).foldlM (fun d s => d.frobBuckets H s 1) d >>= _) = _
  rw [hd']
  rfl

end Hits

/-! ## The constructor -/

theorem foldlM_subCount (ours : RawIblt size) {l : List (Fin size)} (hl : l.Nodup)
    (h : Sync H d out) (hsub : ∀ n ∈ l, n ∈ out) :
    ∃ d', l.foldlM (subCount H ours) d = .ok d' ∧ d'.riblt.buckets = d.riblt.buckets ∧
      (∀ n : Fin size, d'.riblt.counts.get n =
        if n ∈ l then d.riblt.counts.get n - ours.counts.get n else d.riblt.counts.get n) ∧
      Sync H d' (out \ l.toFinset) := by
  induction l generalizing d out with
  | nil => exact ⟨d, rfl, rfl, by simp, by simpa using h⟩
  | cons n l ih =>
    obtain ⟨hn, hl⟩ := List.nodup_cons.mp hl
    have hcount : ∀ m, m ≠ n → (d.riblt.counts.set n
        (d.riblt.counts.get n - ours.counts.get n) n.isLt).get m = d.riblt.counts.get m :=
      fun m hmn => RawIblt.get_set_of_ne _ _ hmn
    have hnout := hsub n List.mem_cons_self
    obtain ⟨d₁, h₁, hr₁, -, hs₁⟩ := (h.setBucket (r := ⟨d.riblt.buckets, d.riblt.counts.set n
      (d.riblt.counts.get n - ours.counts.get n) n.isLt⟩) hnout hcount fun m hmn => rfl).add hnout
    obtain ⟨d₂, h₂, hb₂, hc₂, hs₂⟩ := ih hl hs₁ fun m hm =>
      Finset.mem_erase.mpr ⟨fun e => hn (e ▸ hm), hsub m (List.mem_cons_of_mem n hm)⟩
    refine ⟨d₂, ?_, by rw [hb₂, hr₁], fun m => ?_, ?_⟩
    · rw [List.foldlM_cons, subCount, h₁]
      exact h₂
    · rw [hc₂, hr₁]
      by_cases hmn : m = n
      · subst hmn
        simp [hn, RawIblt.get_set_self]
      · simp only [List.mem_cons, hmn, false_or, hcount m hmn]
    · rwa [List.toFinset_cons, Finset.sdiff_insert, ← Finset.erase_sdiff_comm]

/-- The constructor never throws for tables of one size: it computes the difference and lists every
bucket with a single slice. -/
theorem new_ok (H : Hashes) (junk : BucketType → Bool) (theirs ours : RawIblt size) :
    ∃ d, Iblt.new H junk theirs ours = .ok d ∧
      d.riblt.table = theirs.table - ours.table ∧ InStep H d ∅ := by
  have hstart : Sync H ⟨fun t => IbltTodo.new (junk t),
      ⟨Vector.zipWith TxSlice.xor theirs.buckets ours.buckets, theirs.counts⟩⟩
      (Finset.univ : Finset (Fin size)) := by
    intro t _ n cls
    simp [IbltTodo.new]
  obtain ⟨d, hd, hb, hc, hs⟩ := foldlM_subCount ours (List.nodup_finRange size) hstart
    fun n _ => Finset.mem_univ n
  refine ⟨d, ?_, ?_, ⟨?_, fun n hn => absurd hn (Finset.notMem_empty n)⟩⟩
  · rw [new, dif_pos rfl]
    exact hd
  · funext c
    have hcount : d.riblt.counts.get c = theirs.counts.get c - ours.counts.get c := by
      rw [hc, if_pos (List.mem_finRange c)]
    refine Prod.ext hcount ?_
    show d.riblt.buckets.get c = theirs.buckets.get c - ours.buckets.get c
    rw [hb, TxSlice.sub_eq]
    exact Vector.getElem_zipWith ..
  · convert hs
    ext n
    simp

/-! ## The best single slice -/

/-- The set a bucket is filed under. -/
def classAt (H : Hashes) (d : Iblt size) (n : Fin size) : Fin numTodo := getTodo (d.fragoffAt H n)

/-- The order in which single slices are taken: by set, then ours before theirs, then by bucket. -/
def Before (H : Hashes) (d : Iblt size) (n m : Fin size) : Prop :=
  d.classAt H n < d.classAt H m ∨ d.classAt H n = d.classAt H m ∧
    (d.typeAt n = .OURS ∧ d.typeAt m = .THEIRS ∨ d.typeAt n = d.typeAt m ∧ n ≤ m)

/-- Bucket `n` is the first of those listed for `t`. -/
structure IsFirst (H : Hashes) (d : Iblt size) (out : Finset (Fin size)) (t : BucketType)
    (n : Fin size) : Prop where
  type : d.typeAt n = t
  listed : n ∉ out
  nextTodo : (d.todo t).nextTodo = d.classAt H n
  bucket : d.nextBucket t = .ok n
  least : ∀ m, d.typeAt m = t → m ∉ out →
    d.classAt H n < d.classAt H m ∨ d.classAt H n = d.classAt H m ∧ n ≤ m

/-- A list has a first bucket if it has any. -/
theorem Sync.first (h : Sync H d out) {t : BucketType} (ht : t ≠ .NEITHER) :
    ((d.todo t).nextTodo = IbltTodo.noTodo ∧ ∀ n, d.typeAt n = t → n ∈ out) ∨
      ∃ n, IsFirst H d out t n := by
  rcases (d.todo t).nextTodo_cases with ⟨hno, hempty⟩ | ⟨cls, n, hcls, hnext, hmem, hleast⟩
  · refine Or.inl ⟨hno, fun n hn => ?_⟩
    by_contra hnout
    have hlisted := (h t ht n _).mpr ⟨hn, rfl, hnout⟩
    rw [hempty] at hlisted
    exact Finset.notMem_empty n hlisted
  · obtain ⟨htype, rfl, hnout⟩ := (h t ht n cls).mp hmem
    refine Or.inr ⟨n, htype, hnout, hcls, hnext, ?_⟩
    intro m hm hmout
    exact hleast m _ ((h t ht m _).mpr ⟨hm, rfl, hmout⟩)

/-- A listed bucket has no smaller class than the list begins with. -/
theorem Sync.nextTodo_le (h : Sync H d out) {t : BucketType} (ht : t ≠ .NEITHER) {m : Fin size}
    (hm : d.typeAt m = t) (hmout : m ∉ out) : (d.todo t).nextTodo ≤ d.classAt H m :=
  IbltTodo.nextTodo_le ((h t ht m _).mpr ⟨hm, rfl, hmout⟩)

namespace IsFirst

variable {n : Fin size}

theorem before_same {t : BucketType} (hn : IsFirst H d out t n) {m : Fin size}
    (hm : d.typeAt m = t) (hmout : m ∉ out) : d.Before H n m := by
  refine (hn.least m hm hmout).imp_right ?_
  rintro ⟨heq, hnm⟩
  exact ⟨heq, Or.inr ⟨hn.type.trans hm.symm, hnm⟩⟩

theorem next_ours (hn : IsFirst H d out .OURS n)
    (hle : (d.todo .OURS).nextTodo ≤ (d.todo .THEIRS).nextTodo) :
    d.next = .ok (some (.OURS, d.riblt.buckets.get n)) := by
  have hlt := IbltTodo.numTodo_lt_noTodo
  have hcls := (d.classAt H n).isLt
  have htodo := hn.nextTodo
  have hbucket := hn.bucket
  rw [Iblt.nextBucket] at hbucket
  rw [Iblt.next, if_pos hle, if_neg (by omega), hbucket]
  show (if d.riblt.counts.get n = -1 then _ else _) = _
  rw [if_pos (bucketType_eq_ours.mp hn.type)]
  rfl

theorem next_theirs (hn : IsFirst H d out .THEIRS n)
    (hlt : (d.todo .THEIRS).nextTodo < (d.todo .OURS).nextTodo) :
    d.next = .ok (some (.THEIRS, d.riblt.buckets.get n)) := by
  have hbucket := hn.bucket
  rw [Iblt.nextBucket] at hbucket
  rw [Iblt.next, if_neg (Nat.not_le.mpr hlt), hbucket]
  show (if d.riblt.counts.get n = 1 then _ else _) = _
  rw [if_pos (bucketType_eq_theirs.mp hn.type)]
  rfl

end IsFirst

/-- `next` returns the contents of the first listed bucket, and `none` only when no bucket is
listed; its assertion holds. -/
theorem Sync.next (h : Sync H d out) :
    (d.next = .ok none ∧ ∀ n, d.typeAt n ≠ .NEITHER → n ∈ out) ∨
      ∃ n, d.typeAt n ≠ .NEITHER ∧ n ∉ out ∧
        d.next = .ok (some (d.typeAt n, d.riblt.buckets.get n)) ∧
        d.nextBucket (d.typeAt n) = .ok n ∧
        ∀ m, d.typeAt m ≠ .NEITHER → m ∉ out → d.Before H n m := by
  have hlt := IbltTodo.numTodo_lt_noTodo
  have ours_ne : BucketType.OURS ≠ .NEITHER := nofun
  have theirs_ne : BucketType.THEIRS ≠ .NEITHER := nofun
  rcases Nat.lt_or_ge (d.todo .THEIRS).nextTodo (d.todo .OURS).nextTodo with htheirs | hours
  · obtain ⟨n, hn⟩ : ∃ n, IsFirst H d out .THEIRS n := by
      refine (h.first theirs_ne).resolve_left ?_
      rintro ⟨ht, -⟩
      rcases h.first ours_ne with ⟨ho, -⟩ | ⟨n, hn⟩
      · omega
      · have hcls := (d.classAt H n).isLt
        have htodo := hn.nextTodo
        omega
    refine Or.inr ⟨n, hn.type ▸ theirs_ne, hn.listed, hn.type ▸ hn.next_theirs htheirs,
      hn.type ▸ hn.bucket, ?_⟩
    intro m hm hmout
    cases htm : d.typeAt m with
    | OURS =>
      have hle := h.nextTodo_le ours_ne htm hmout
      rw [hn.nextTodo] at htheirs
      exact Or.inl (Fin.lt_def.mpr (htheirs.trans_le hle))
    | THEIRS => exact hn.before_same htm hmout
    | NEITHER => exact absurd htm hm
  · rcases h.first ours_ne with ⟨ho, hall⟩ | ⟨n, hn⟩
    · rcases h.first theirs_ne with ⟨-, hall'⟩ | ⟨n, hn⟩
      · refine Or.inl ⟨by rw [Iblt.next, if_pos hours, if_pos ho], ?_⟩
        intro n hne
        cases htn : d.typeAt n with
        | OURS => exact hall n htn
        | THEIRS => exact hall' n htn
        | NEITHER => exact absurd htn hne
      · have hcls := (d.classAt H n).isLt
        have htodo := hn.nextTodo
        omega
    · refine Or.inr ⟨n, hn.type ▸ ours_ne, hn.listed, hn.type ▸ hn.next_ours hours,
        hn.type ▸ hn.bucket, ?_⟩
      intro m hm hmout
      cases htm : d.typeAt m with
      | OURS => exact hn.before_same htm hmout
      | THEIRS =>
        -- in a draw ours comes first
        have hle := hours.trans (h.nextTodo_le theirs_ne htm hmout)
        rw [hn.nextTodo] at hle
        exact (Fin.le_def.mpr hle).lt_or_eq.imp_right fun heq => ⟨heq, Or.inl ⟨hn.type, htm⟩⟩
      | NEITHER => exact absurd htm hm

/-- When `next` returns `NEITHER`, no bucket holds a single slice. -/
theorem InStep.all_neither (h : InStep H d ∅) (hnone : d.next = .ok none) (n : Fin size) :
    d.typeAt n = .NEITHER := by
  rcases h.sync.next with ⟨-, hall⟩ | ⟨m, -, -, hn, -⟩
  · by_contra hne
    exact absurd (hall n hne) (Finset.notMem_empty n)
  · rw [hn] at hnone
    cases hnone

/-- `remove_todo` of what `next` returned takes that bucket off its list. -/
theorem InStep.removeTodo (h : InStep H d out) {n : Fin size} (ht : d.typeAt n ≠ .NEITHER)
    (hn : n ∉ out) (hnext : d.nextBucket (d.typeAt n) = .ok n) :
    ∃ d', d.removeTodo H (d.typeAt n) (d.riblt.buckets.get n) = .ok d' ∧ d'.riblt = d.riblt ∧
      InStep H d' (insert n out) := by
  have hlisted := (h.sync _ ht n _).mpr ⟨rfl, rfl, hn⟩
  obtain ⟨l, hl, hflag, hmem⟩ := IbltTodo.del_ok true (Or.inl hlisted)
  have hout : ∀ m, m ≠ n → (m ∈ insert n out ↔ m ∈ out) := fun m hmn => by simp [hmn]
  refine ⟨⟨Function.update d.todo (d.typeAt n) l, d.riblt⟩, ?_, rfl, ?_, fun m hm hne => ?_⟩
  · rw [Iblt.removeTodo, if_neg ht, hnext]
    show ((d.todo (d.typeAt n)).del (d.fragoffAt H n) n true >>= _) = _
    rw [hl]
    rfl
  · refine h.sync.setList ht (fun m hmn cls => ?_) (fun cls => ?_) hout
    · rw [hmem]
      simp [hmn]
    · rw [hmem, h.sync _ ht]
      simp only [Finset.mem_insert, true_or, not_true_eq_false, and_false, iff_false, not_and]
      rintro ⟨-, hcls, -⟩ hne
      exact hne trivial hcls
  · show (Function.update d.todo (d.typeAt n) l (d.typeAt m)).manuallyRemoved = true
    by_cases he : d.typeAt m = d.typeAt n
    · rw [he, Function.update_self, hflag, Bool.true_or]
    · have hmn : m ≠ n := fun e => he (by rw [e])
      rw [Function.update_of_ne he]
      exact h.armed m ((hout m hmn).mp hm) hne

end Iblt

end BitcoinIblt
