import BitcoinIblt.SliceLayout
import BitcoinIblt.Spelling

/-!
# Joining arbitrary slices

`rebuild_tx` on slices with arbitrary contents. It reads the varint at the start twice, once from
the joined bytes and once from the first slice, so its comparison always holds
(`rebuildTx_eq`): the number of slices is not checked (`rebuildTx_count_iff`). The parser asks for
memory before it looks at what is left to read, and `new` throws another class of exception than the
one that is caught (`rebuildTx_returns_iff`).
-/

namespace BitcoinIblt

open StickyParser

/-! ## Parsing with a limit on memory -/

/-- `new T[count]` throws when the array has more than `limit` bytes. -/
def newUpTo (limit : ℕ) : Allocator := fun count size => decide (count * size ≤ limit)

/-- `new T[count]` never throws. -/
def endless : Allocator := fun _ _ => true

theorem endless_succeeds : endless.Succeeds := fun _ _ => rfl

/-- All arrays of the transaction can be allocated. -/
def BitcoinTx.fits (A : Allocator) (tx : BitcoinTx) : Bool :=
  (A tx.inputCount.toNat sizeofInput && tx.input.all fun i => A i.scriptLength.toNat 1) &&
    (A tx.outputCount.toNat sizeofOutput && tx.output.all fun o => A o.scriptLength.toNat 1)

section Guards

variable (A : Allocator)

/-- The allocator decides between the result of endless memory and the exception. -/
abbrev Guarded {α : Type} (p : Allocator → Pull α) (fits : α → Bool) : Prop :=
  Guards .badArrayNewLength (p A) (p endless) fits

theorem newArray_bind {α : Type} {count size : ℕ} (f : Unit → Pull α) (c : Cursor U8) :
    (newArray A count size >>= f) c =
      if A count size then f () c else .error .badArrayNewLength := by
  rw [bind_apply, newArray]
  split_ifs <;> rfl

theorem guarded_pullScript : Guarded A pullScript fun r => A r.1.toNat 1 := by
  intro c
  obtain ⟨n, c₁, hn⟩ := pullVarint_returns c
  obtain ⟨script, c₂, hscript⟩ := pullCopy_returns n.toNat c₁
  have heq : ∀ B : Allocator, pullScript B c =
      if B n.toNat 1 then .ok (⟨n, script⟩, c₂) else .error .badArrayNewLength := by
    intro B
    rw [pullScript, bind_of_ok hn, newArray_bind, bind_of_ok hscript]
    rfl
  exact ⟨⟨n, script⟩, c₂, by rw [heq]; rfl, heq A⟩

theorem guarded_pullInput : Guarded A pullInput fun i => A i.scriptLength.toNat 1 := by
  intro c
  obtain ⟨txid, c₁, htxid⟩ := pullCopy_returns 32 c
  obtain ⟨index, c₂, hindex⟩ := pullLe32_returns c₁
  obtain ⟨⟨n, script⟩, c₃, hfree, hguard⟩ := guarded_pullScript A c₂
  obtain ⟨seq, c₄, hseq⟩ := pullLe32_returns c₃
  refine ⟨⟨txid, index, n, script.1, seq, script.2⟩, c₄, ?_, ?_⟩
  · rw [pullInput, bind_of_ok htxid, bind_of_ok hindex, bind_of_ok hfree]
    dsimp only
    rw [bind_of_ok hseq]
    rfl
  · rw [pullInput, bind_of_ok htxid, bind_of_ok hindex]
    split_ifs at hguard ⊢
    · rw [bind_of_ok hguard]
      dsimp only
      rw [bind_of_ok hseq]
      rfl
    · rw [bind_of_error hguard]

theorem guarded_pullOutput : Guarded A pullOutput fun o => A o.scriptLength.toNat 1 := by
  intro c
  obtain ⟨amount, c₁, hamount⟩ := pullLe64_returns c
  obtain ⟨⟨n, script⟩, c₂, hfree, hguard⟩ := guarded_pullScript A c₁
  refine ⟨⟨amount, n, script.1, script.2⟩, c₂, ?_, ?_⟩
  · rw [pullOutput, bind_of_ok hamount, bind_of_ok hfree]
    rfl
  · rw [pullOutput, bind_of_ok hamount]
    split_ifs at hguard ⊢
    · rw [bind_of_ok hguard]
      rfl
    · rw [bind_of_error hguard]

theorem guarded_pullArray {α : Type} {p : Allocator → Pull α} {fits : α → Bool}
    (h : Guarded A p fits) (size : ℕ) :
    Guards .badArrayNewLength (pullArray A size (p A)) (pullArray endless size (p endless))
      fun r => A r.1.toNat size && r.2.1.all fits := by
  intro c
  obtain ⟨n, c₁, hn⟩ := pullVarint_returns c
  obtain ⟨l, c₂, hfree, hguard⟩ := h.many n.toNat c₁
  refine ⟨⟨n, l⟩, c₂, ?_, ?_⟩
  · rw [pullArray, bind_of_ok hn, newArray_bind, bind_of_ok hfree]
    rfl
  · rw [pullArray, bind_of_ok hn, newArray_bind]
    by_cases hA : A n.toNat size = true
    · rw [if_pos hA]
      by_cases hl : l.1.all fits = true
      · rw [if_pos hl] at hguard
        rw [bind_of_ok hguard, if_pos (by simp [hA, hl])]
        rfl
      · rw [if_neg hl] at hguard
        rw [bind_of_error hguard, if_neg (by simp [hl])]
    · rw [if_neg hA, if_neg (by simp [hA])]

/-- With an allocator the parser stops just when the transaction that it would return does not
fit. -/
theorem guarded_pullBitcoinTx : Guarded A pullBitcoinTx (BitcoinTx.fits A) := by
  intro c
  obtain ⟨version, c₁, hversion⟩ := pullLe32_returns c
  obtain ⟨⟨ni, i⟩, c₂, hinFree, hin⟩ :=
    guarded_pullArray A (guarded_pullInput A) sizeofInput c₁
  obtain ⟨⟨no, o⟩, c₃, houtFree, hout⟩ :=
    guarded_pullArray A (guarded_pullOutput A) sizeofOutput c₂
  obtain ⟨lockTime, c₄, hlock⟩ := pullLe32_returns c₃
  refine ⟨⟨version, ni, i.1, no, o.1, lockTime, i.2, o.2⟩, c₄, ?_, ?_⟩
  · rw [pullBitcoinTx, bind_of_ok hversion, bind_of_ok hinFree]
    dsimp only
    rw [bind_of_ok houtFree]
    dsimp only
    rw [bind_of_ok hlock]
    rfl
  · rw [pullBitcoinTx, bind_of_ok hversion, BitcoinTx.fits]
    -- the inputs are asked for first
    cases h₁ : (A ni.toNat sizeofInput && i.1.all fun i => A i.scriptLength.toNat 1) with
    | false =>
      rw [if_neg (by simp [h₁])] at hin
      rw [bind_of_error hin, Bool.false_and, if_neg (by simp)]
    | true =>
      rw [if_pos h₁] at hin
      rw [bind_of_ok hin, Bool.true_and]
      dsimp only
      cases h₂ : (A no.toNat sizeofOutput && o.1.all fun o => A o.scriptLength.toNat 1) with
      | false =>
        rw [if_neg (by simp [h₂])] at hout
        rw [bind_of_error hout, if_neg (by simp)]
      | true =>
        rw [if_pos h₂] at hout
        rw [bind_of_ok hout, if_pos rfl]
        dsimp only
        rw [bind_of_ok hlock]
        rfl

end Guards

/-- The fields that the bytes spell, read without asking for memory. Behind the end of the bytes
they are zero. -/
def spelledFields (bs : List U8) : BitcoinTx :=
  match pullBitcoinTx endless (some bs) with
  | .ok (tx, _) => tx
  | .error _ => BitcoinTx.blank

/-- The constructor throws `bad_array_new_length` when a field of the bytes does not fit, and
otherwise does what it does with endless memory. -/
theorem parse_eq (A : Allocator) (bs : List U8) : BitcoinTx.parse A (some bs) =
    if (spelledFields bs).fits A then BitcoinTx.parse endless (some bs)
    else .error .badArrayNewLength := by
  obtain ⟨tx, c, hfree, hguard⟩ := guarded_pullBitcoinTx A (some bs)
  have hfields : spelledFields bs = tx := by
    unfold spelledFields
    rw [hfree]
  rw [BitcoinTx.parse, bind_apply, hguard, hfields, BitcoinTx.parse, bind_apply, hfree]
  split_ifs <;> rfl

theorem parse_endless (bs : List U8) :
    BitcoinTx.parse endless (some bs) = .error (.runtimeError "bad tx") ∨
      ∃ rest, BitcoinTx.parse endless (some bs) = .ok (spelledFields bs, some rest) := by
  obtain ⟨tx, c, hfree, -⟩ := guarded_pullBitcoinTx endless (some bs)
  have hfields : spelledFields bs = tx := by
    unfold spelledFields
    rw [hfree]
  rw [BitcoinTx.parse, bind_apply, hfree, hfields]
  cases c with
  | none => exact Or.inl rfl
  | some rest => exact Or.inr ⟨rest, rfl⟩

/-! ## The two readings of the count -/

theorem pullVarint_some {bs : List U8} (h : 9 ≤ bs.length) :
    ∃ v rest, pullVarint (some bs) = .ok (v, some rest) := by
  have hdecode : ∀ (n : ℕ) (dec : List U8 → U64) (bs : List U8), n ≤ bs.length →
      ∃ v rest, pullDecode n 0 dec (some bs) = .ok (v, some rest) := by
    intro n dec bs hn
    refine ⟨dec (bs.take n), bs.drop n, ?_⟩
    rw [pullDecode, bind_apply, pull, dif_neg (by omega)]
    rfl
  cases bs with
  | nil => simp at h
  | cons b bs =>
    rw [List.length_cons] at h
    rw [pullVarint_cons, pullVarintRest]
    split_ifs
    · exact ⟨_, _, rfl⟩
    · exact hdecode 2 _ bs (by omega)
    · exact hdecode 4 _ bs (by omega)
    · exact hdecode 8 _ bs (by omega)

/-- The joined contents start with the count that the first slice declares. -/
theorem flat_spelling (first : TxSlice) (tail : List TxSlice) :
    ∃ (s : VarintSpelling) (rest : List U8), flat (first :: tail) = s.bytes ++ rest ∧
      first.slicesExpected = .ok s.value := by
  have hlen : 9 ≤ first.contents.1.length := by
    rw [first.contents.2]
    decide
  obtain ⟨v, rest, hv⟩ := pullVarint_some hlen
  obtain ⟨s, rfl, hs⟩ := consumes_pullVarint hv
  refine ⟨s, rest ++ flat tail, ?_, ?_⟩
  · rw [← List.append_assoc, ← Option.some.inj hs]
    rfl
  · rw [TxSlice.slicesExpected, hv]
    rfl

/-- The comparison holds, and what is behind the count is parsed. -/
theorem tryRebuild_eq (A : Allocator) {first : TxSlice} {tail : List TxSlice} {s : VarintSpelling}
    {rest : List U8} (hflat : flat (first :: tail) = s.bytes ++ rest) :
    tryRebuild A (flat (first :: tail)) first =
      (BitcoinTx.parse A (some rest)).map fun r => some r.1 := by
  obtain ⟨s', rest', hflat', hexp⟩ := flat_spelling first tail
  obtain ⟨rfl, rfl⟩ := VarintSpelling.append_inj (hflat.symm.trans hflat')
  have hpull := s.reads.full rest
  rw [← hflat] at hpull
  rw [tryRebuild, hpull]
  show (first.slicesExpected >>= fun e => _) = _
  rw [hexp]
  show (if s.value ≠ s.value then _ else _) = _
  rw [if_neg (not_not.mpr rfl)]
  cases BitcoinTx.parse A (some rest) <;> rfl

/-- `rebuild_tx` throws when a field behind the count does not fit, and otherwise returns whether a
transaction can be parsed there. -/
theorem rebuildTx_eq (A : Allocator) {slices : List TxSlice} {s : VarintSpelling} {rest : List U8}
    (hne : slices ≠ []) (hflat : flat slices = s.bytes ++ rest) :
    rebuildTx A slices =
      if (spelledFields rest).fits A then
        .ok (((BitcoinTx.parse endless (some rest)).map Prod.fst).toOption)
      else .error .badArrayNewLength := by
  obtain ⟨first, tail, rfl⟩ := List.exists_cons_of_ne_nil hne
  show catchRuntimeError (tryRebuild A (flat (first :: tail)) first) = _
  rw [tryRebuild_eq A hflat, parse_eq]
  split_ifs
  · rcases parse_endless rest with h | ⟨rest', h⟩ <;> rw [h] <;> rfl
  · rfl

theorem rebuildTx_cases (A : Allocator) {slices : List TxSlice} (hne : slices ≠ []) :
    rebuildTx A slices = .error .badArrayNewLength ∨ rebuildTx A slices = .ok none ∨
      ∃ btx, rebuildTx A slices = .ok (some btx) := by
  obtain ⟨first, tail, rfl⟩ := List.exists_cons_of_ne_nil hne
  obtain ⟨s, rest, hflat, -⟩ := flat_spelling first tail
  rw [rebuildTx_eq A hne hflat]
  split_ifs
  · rcases parse_endless rest with h | ⟨rest', h⟩ <;> rw [h]
    · exact Or.inr (Or.inl rfl)
    · exact Or.inr (Or.inr ⟨_, rfl⟩)
  · exact Or.inl rfl

/-! ## Exceptions -/

/-- **Malformed contents.** On slices with arbitrary contents `rebuild_tx` returns, unless a count
or a script length behind the slice count asks for more memory than `new` can give. -/
theorem rebuildTx_returns_iff (limit : ℕ) {slices : List TxSlice} (hne : slices ≠ []) :
    ∃ (s : VarintSpelling) (rest : List U8), flat slices = s.bytes ++ rest ∧
      ((∃ r, rebuildTx (newUpTo limit) slices = .ok r) ↔
        (spelledFields rest).fits (newUpTo limit) = true) := by
  obtain ⟨first, tail, rfl⟩ := List.exists_cons_of_ne_nil hne
  obtain ⟨s, rest, hflat, -⟩ := flat_spelling first tail
  refine ⟨s, rest, hflat, ?_⟩
  rw [rebuildTx_eq _ hne hflat]
  constructor
  · rintro ⟨r, hr⟩
    split_ifs at hr with hfits
    exact hfits
  · intro hfits
    rw [if_pos hfits]
    exact ⟨_, rfl⟩

/-- A slice that declares itself alone, and behind the version `2 ^ 64 - 1` inputs. -/
def hugeSlice : TxSlice :=
  ⟨0, 0, ⟨[1, 1, 0, 0, 0] ++ List.replicate 9 0xff ++ List.replicate 50 0, by decide⟩⟩

theorem rebuildTx_returns_hugeSlice : [hugeSlice] ≠ [] ∧
    ∃ (s : VarintSpelling) (rest : List U8), flat [hugeSlice] = s.bytes ++ rest ∧
      ((∃ r, rebuildTx (newUpTo (2 ^ 63 - 1)) [hugeSlice] = .ok r) ↔
        (spelledFields rest).fits (newUpTo (2 ^ 63 - 1)) = true) :=
  ⟨by simp, rebuildTx_returns_iff (2 ^ 63 - 1) (by simp)⟩

/-- Asking for the inputs of `hugeSlice` throws, and the exception leaves `rebuild_tx`. -/
theorem rebuildTx_throws :
    rebuildTx (newUpTo (2 ^ 63 - 1)) [hugeSlice] = .error .badArrayNewLength ∧
      ¬∃ r, rebuildTx (newUpTo (2 ^ 63 - 1)) [hugeSlice] = .ok r := by
  have h : rebuildTx (newUpTo (2 ^ 63 - 1)) [hugeSlice] = .error .badArrayNewLength := rfl
  refine ⟨h, ?_⟩
  rintro ⟨r, hr⟩
  rw [h] at hr
  cases hr

/-! ## The number of slices -/

theorem parse_eq_ok {A : Allocator} {bs rest : List U8} {tx : BitcoinTx} :
    BitcoinTx.parse A (some bs) = .ok (tx, some rest) ↔
      ∃ t : SpelledTx, t.tx = tx ∧ tx.fits A = true ∧ bs = t.bytes ++ rest := by
  rw [parse_eq]
  constructor
  · intro h
    split_ifs at h with hfits
    obtain ⟨t, ht, hbs⟩ := (parse_iff endless_succeeds).mp h
    rcases parse_endless bs with h' | ⟨rest', h'⟩
    · rw [h'] at h
      cases h
    · rw [h'] at h
      cases h
      exact ⟨t, ht, hfits, hbs⟩
  · rintro ⟨t, rfl, hfits, rfl⟩
    have h := parse_spelledTx endless_succeeds t rest
    rcases parse_endless (t.bytes ++ rest) with h' | ⟨rest', h'⟩
    · rw [h'] at h
      cases h
    · have htx := (Prod.mk.inj (Except.ok.inj (h'.symm.trans h))).1
      rw [htx, if_pos hfits, h]

/-- `rebuild_tx` succeeds when a transaction starts right behind the slice count, whatever the count
and the number of slices are. -/
theorem rebuildTx_some_iff {A : Allocator} {slices : List TxSlice} {s : VarintSpelling}
    {rest : List U8} (hne : slices ≠ []) (hflat : flat slices = s.bytes ++ rest) {btx : BitcoinTx} :
    rebuildTx A slices = .ok (some btx) ↔
      ∃ t : SpelledTx, t.tx = btx ∧ btx.fits A = true ∧ t.bytes <+: rest := by
  obtain ⟨first, tail, rfl⟩ := List.exists_cons_of_ne_nil hne
  have hparse : rebuildTx A (first :: tail) = .ok (some btx) ↔
      ∃ c, BitcoinTx.parse A (some rest) = .ok (btx, some c) := by
    show catchRuntimeError (tryRebuild A (flat (first :: tail)) first) = _ ↔ _
    rw [tryRebuild_eq A hflat, parse_eq]
    split_ifs
    · rcases parse_endless rest with h | ⟨rest', h⟩
      · rw [h]
        constructor
        · rintro ⟨⟩
        · rintro ⟨c, ⟨⟩⟩
      · rw [h]
        constructor
        · intro h'
          cases h'
          exact ⟨rest', rfl⟩
        · rintro ⟨c, hc⟩
          cases hc
          rfl
    · constructor
      · rintro ⟨⟩
      · rintro ⟨c, ⟨⟩⟩
  rw [hparse]
  constructor
  · rintro ⟨c, hc⟩
    obtain ⟨t, ht, hfits, hbs⟩ := parse_eq_ok.mp hc
    exact ⟨t, ht, hfits, c, hbs.symm⟩
  · rintro ⟨t, ht, hfits, c, hc⟩
    exact ⟨c, parse_eq_ok.mpr ⟨t, ht, hfits, hc.symm⟩⟩

/-- **The declared count.** It is the number of slices whenever `rebuild_tx` succeeds, just when it
is that number anyway or no transaction starts behind it. -/
theorem rebuildTx_count_iff (A : Allocator) {slices : List TxSlice} (hne : slices ≠ []) :
    ∃ (s : VarintSpelling) (rest : List U8), flat slices = s.bytes ++ rest ∧
      ((∀ btx, rebuildTx A slices = .ok (some btx) → s.value.toNat = slices.length) ↔
        s.value.toNat = slices.length ∨
          ∀ t : SpelledTx, t.bytes <+: rest → t.tx.fits A = false) := by
  obtain ⟨first, tail, rfl⟩ := List.exists_cons_of_ne_nil hne
  obtain ⟨s, rest, hflat, -⟩ := flat_spelling first tail
  refine ⟨s, rest, hflat, ?_⟩
  constructor
  · intro h
    by_cases hcount : s.value.toNat = (first :: tail).length
    · exact Or.inl hcount
    · refine Or.inr fun t ht => ?_
      by_contra hfits
      exact hcount (h t.tx ((rebuildTx_some_iff hne hflat).mpr
        ⟨t, rfl, by simpa using hfits, ht⟩))
  · rintro (hcount | hno) btx h
    · exact hcount
    · obtain ⟨t, rfl, hfits, ht⟩ := (rebuildTx_some_iff hne hflat).mp h
      rw [hno t ht] at hfits
      cases hfits

/-- A slice that declares two, with the blank transaction behind the count. -/
def miscountSlice : TxSlice :=
  ⟨0, 0, ⟨[2, 1, 0, 0, 0, 0, 0, 0xff, 0xff, 0xff, 0xff] ++ List.replicate 53 0, by decide⟩⟩

theorem rebuildTx_count_miscountSlice : [miscountSlice] ≠ [] ∧
    ∃ (s : VarintSpelling) (rest : List U8), flat [miscountSlice] = s.bytes ++ rest ∧
      ((∀ btx, rebuildTx endless [miscountSlice] = .ok (some btx) →
          s.value.toNat = [miscountSlice].length) ↔
        s.value.toNat = [miscountSlice].length ∨
          ∀ t : SpelledTx, t.bytes <+: rest → t.tx.fits endless = false) :=
  ⟨by simp, rebuildTx_count_iff endless (by simp)⟩

/-- It is taken for the one slice of the blank transaction. -/
theorem rebuildTx_miscount : rebuildTx (newUpTo (2 ^ 63 - 1)) [miscountSlice] =
      .ok (some BitcoinTx.blank) ∧
    miscountSlice.slicesExpected = .ok 2 ∧ [miscountSlice].length ≠ 2 :=
  ⟨rfl, rfl, by decide⟩

end BitcoinIblt
