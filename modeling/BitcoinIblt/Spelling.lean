import BitcoinIblt.BitcoinTx

/-!
# Spellings of a transaction

`pull_varint` takes a number in any of the four widths that hold it, `add_varint` writes the
shortest. So the bytes of an accepted transaction are a `SpelledTx`: its fields, with each count and
each script length in some `VarintSpelling`. Writing the transaction again gives the same bytes just
when all these spellings are the shortest ones (`reencode`).
-/

namespace BitcoinIblt

open LittleEndian StickyParser

/-! ## Varints -/

/-- Bytes that `pull_varint` reads as a number. -/
structure VarintSpelling where
  bytes : List U8
  value : U64
  reads : Reads pullVarint value bytes

namespace VarintSpelling

/-- No spelling of the number has fewer bytes. -/
def Shortest (s : VarintSpelling) : Prop :=
  ∀ s' : VarintSpelling, s'.value = s.value → s.bytes.length ≤ s'.bytes.length

/-- The bytes that `add_varint` writes. -/
def short (v : U64) : VarintSpelling := ⟨varintBytes v, v, reads_varint v⟩

end VarintSpelling

/-- What `pull_varint` has read is a spelling of its result. -/
theorem consumes_pullVarint {c : Cursor U8} {v : U64} {rest : List U8}
    (h : pullVarint c = .ok (v, some rest)) :
    ∃ s : VarintSpelling, s.value = v ∧ c = some (s.bytes ++ rest) := by
  have hdecode : ∀ (n : ℕ) (dec : List U8 → U64) (b : U8) (bs : List U8),
      pullVarintRest b = pullDecode n 0 dec → pullVarintRest b (some bs) = .ok (v, some rest) →
      ∃ s : VarintSpelling, s.value = v ∧ some (b :: bs) = some (s.bytes ++ rest) := by
    intro n dec b bs hrest h
    rw [hrest] at h
    obtain ⟨p, hlen, hv, hp⟩ := consumes_pullDecode h
    have hreads := reads_pullDecode hlen 0 hv
    rw [← hrest] at hreads
    exact ⟨⟨b :: p, v, reads_marker hreads⟩, rfl, by rw [Option.some.inj hp]; rfl⟩
  cases c with
  | none => cases h
  | some bs =>
    cases bs with
    | nil =>
      rw [pullVarint_nil] at h
      cases h
    | cons b bs =>
      rw [pullVarint_cons] at h
      by_cases h₁ : b < 0xfd
      · have hrest : pullVarintRest b = pure (b.setWidth 64) := by rw [pullVarintRest, if_pos h₁]
        have hreads : Reads (pullVarintRest b) (b.setWidth 64) [] := by
          rw [hrest]
          exact Reads.pure _
        rw [hrest] at h
        cases h
        exact ⟨⟨[b], _, reads_marker hreads⟩, rfl, rfl⟩
      · by_cases h₂ : b = 0xfd
        · exact hdecode _ _ b bs (by rw [pullVarintRest, if_neg h₁, if_pos h₂]) h
        · by_cases h₃ : b = 0xfe
          · exact hdecode _ _ b bs (by rw [pullVarintRest, if_neg h₁, if_neg h₂, if_pos h₃]) h
          · exact hdecode _ _ b bs (by rw [pullVarintRest, if_neg h₁, if_neg h₂, if_neg h₃]) h

/-- The sums of `pull_varint` put the bytes together lowest first. -/
theorem pulled_two {p : List U8} (h : p.length = 2) :
    (pulled p 1 + pulled p 0).toNat = ofLE p := by
  match p, h with
  | [a, b], _ =>
    simp [pulled_toNat, BitVec.toNat_add, ofLE]
    omega

theorem pulled_four {p : List U8} (h : p.length = 4) :
    (pulled p 3 + pulled p 2 + pulled p 1 + pulled p 0).toNat = ofLE p := by
  match p, h with
  | [a, b, c, d], _ =>
    simp [pulled_toNat, BitVec.toNat_add, ofLE]
    omega

theorem pulled_eight {p : List U8} (h : p.length = 8) :
    (pulled p 7 + pulled p 6 + pulled p 5 + pulled p 4 + pulled p 3 + pulled p 2 + pulled p 1
      + pulled p 0).toNat = ofLE p := by
  match p, h with
  | [a, b, c, d, e, f, g, i], _ =>
    simp [pulled_toNat, BitVec.toNat_add, ofLE]
    omega

namespace VarintSpelling

/-- A spelling is the number itself, or a marker and the number in 2, 4 or 8 bytes. -/
theorem shape (s : VarintSpelling) :
    (∃ b : U8, b < 0xfd ∧ s.bytes = [b] ∧ s.value.toNat = b.toNat) ∨
      ∃ b p, (b = 0xfd ∧ p.length = 2 ∨ b = 0xfe ∧ p.length = 4 ∨ b = 0xff ∧ p.length = 8) ∧
        s.bytes = b :: p ∧ s.value.toNat = ofLE p := by
  have h := s.reads.full []
  rw [List.append_nil] at h
  cases hs : s.bytes with
  | nil =>
    rw [hs, pullVarint_nil] at h
    exact absurd (Prod.mk.inj (Except.ok.inj h)).2 (by simp)
  | cons b bs =>
    rw [hs, pullVarint_cons, pullVarintRest] at h
    split_ifs at h with h₁ h₂ h₃
    · obtain ⟨hv, hbs⟩ := Prod.mk.inj (Except.ok.inj h)
      refine Or.inl ⟨b, h₁, by rw [Option.some.inj hbs], ?_⟩
      rw [← hv, BitVec.toNat_setWidth, Nat.mod_eq_of_lt (b.isLt.trans (by norm_num))]
    · obtain ⟨p, hlen, hv, hp⟩ := consumes_pullDecode h
      rw [List.append_nil] at hp
      exact Or.inr ⟨b, p, Or.inl ⟨h₂, hlen⟩, by rw [Option.some.inj hp], by
        rw [← hv, pulled_two hlen]⟩
    · obtain ⟨p, hlen, hv, hp⟩ := consumes_pullDecode h
      rw [List.append_nil] at hp
      exact Or.inr ⟨b, p, Or.inr (Or.inl ⟨h₃, hlen⟩), by rw [Option.some.inj hp], by
        rw [← hv, pulled_four hlen]⟩
    · obtain ⟨p, hlen, hv, hp⟩ := consumes_pullDecode h
      rw [List.append_nil] at hp
      have hb : b = 0xff := by bv_omega
      exact Or.inr ⟨b, p, Or.inr (Or.inr ⟨hb, hlen⟩), by rw [Option.some.inj hp], by
        rw [← hv, pulled_eight hlen]⟩

/-- The bytes behind the marker are the low bytes of the number. -/
theorem varintBytes_shape (v : U64) : varintBytes v =
    if v.toNat < 0xfd then [BitVec.ofNat 8 v.toNat]
    else if v.toNat ≤ 0xffff then 0xfd :: toLE 2 v.toNat
    else if v.toNat ≤ 0xffffffff then 0xfe :: toLE 4 v.toNat
    else 0xff :: toLE 8 v.toNat := by
  have hbyte : ∀ k, (v >>> k).setWidth 8 = BitVec.ofNat 8 (v.toNat / 2 ^ k) := by
    intro k
    apply BitVec.eq_of_toNat_eq
    rw [BitVec.toNat_setWidth, BitVec.toNat_ushiftRight, BitVec.toNat_ofNat,
      Nat.shiftRight_eq_div_pow]
  have hlow : v.setWidth 8 = BitVec.ofNat 8 v.toNat := rfl
  simp only [varintBytes, hbyte, hlow, toLE, Nat.div_div_eq_div_mul]
  rfl

theorem varintLen_le_length (s : VarintSpelling) : varintLen s.value.toNat ≤ s.bytes.length := by
  have hle := varintLen_le s.value.toNat
  rcases s.shape with ⟨b, hb, hs, hv⟩ | ⟨b, p, hp, hs, hv⟩
  · have hb' : b.toNat < 0xfd := hb
    rw [hs, hv, varintLen, if_pos hb']
    rfl
  · have hlt := ofLE_lt p
    rw [hs, List.length_cons]
    unfold varintLen
    rcases hp with ⟨-, hlen⟩ | ⟨-, hlen⟩ | ⟨-, hlen⟩
    all_goals
      rw [hlen] at hlt ⊢
      split_ifs <;> omega

/-- A spelling as short as possible is the one that `add_varint` writes. -/
theorem eq_varintBytes (s : VarintSpelling) (h : s.bytes.length ≤ varintLen s.value.toNat) :
    s.bytes = varintBytes s.value := by
  rw [varintBytes_shape]
  rcases s.shape with ⟨b, hb, hs, hv⟩ | ⟨b, p, hp, hs, hv⟩
  · have hb' : b.toNat < 0xfd := hb
    rw [hs, hv, if_pos hb', BitVec.ofNat_toNat, BitVec.setWidth_eq]
  · have hlt := ofLE_lt p
    have hle := toLE_ofLE p
    rw [hs, List.length_cons] at h
    rw [hs, hv]
    rw [hv] at h
    unfold varintLen at h
    rcases hp with ⟨rfl, hlen⟩ | ⟨rfl, hlen⟩ | ⟨rfl, hlen⟩
    all_goals
      rw [hlen] at h hlt hle
      split_ifs at h ⊢ <;> first | omega | rw [hle]

theorem shortest_iff (s : VarintSpelling) : s.Shortest ↔ s.bytes = varintBytes s.value := by
  constructor
  · intro h
    have hle := h (short s.value) rfl
    rw [short, varintBytes_length] at hle
    exact s.eq_varintBytes hle
  · intro h s' hs'
    rw [h, varintBytes_length, ← hs']
    exact s'.varintLen_le_length

/-- The bytes that the spelling could save. -/
def excess (s : VarintSpelling) : ℕ := s.bytes.length - varintLen s.value.toNat

theorem length_eq (s : VarintSpelling) :
    s.bytes.length = (varintBytes s.value).length + s.excess := by
  have h := s.varintLen_le_length
  rw [varintBytes_length, excess]
  omega

theorem shortest_iff_excess (s : VarintSpelling) : s.Shortest ↔ s.excess = 0 := by
  rw [shortest_iff, excess]
  constructor
  · intro h
    rw [h, varintBytes_length, Nat.sub_self]
  · intro h
    exact s.eq_varintBytes (by omega)

end VarintSpelling

/-! ## Transactions -/

/-- An input with a spelling of its script length. -/
structure SpelledInput where
  input : BitcoinTxInput
  scriptLength : VarintSpelling
  value_scriptLength : scriptLength.value = input.scriptLength

structure SpelledOutput where
  output : BitcoinTxOutput
  scriptLength : VarintSpelling
  value_scriptLength : scriptLength.value = output.scriptLength

/-- A transaction with a spelling of each varint in it. -/
structure SpelledTx where
  tx : BitcoinTx
  inputCount : VarintSpelling
  input : List SpelledInput
  outputCount : VarintSpelling
  output : List SpelledOutput
  value_inputCount : inputCount.value = tx.inputCount
  map_input : input.map SpelledInput.input = tx.input
  value_outputCount : outputCount.value = tx.outputCount
  map_output : output.map SpelledOutput.output = tx.output

def SpelledInput.bytes (s : SpelledInput) : List U8 :=
  s.input.txid.1 ++ (le32Bytes s.input.index ++ (s.scriptLength.bytes ++
    (s.input.script ++ le32Bytes s.input.sequenceNumber)))

def SpelledOutput.bytes (s : SpelledOutput) : List U8 :=
  le64Bytes s.output.amount ++ (s.scriptLength.bytes ++ s.output.script)

namespace SpelledTx

def bytes (t : SpelledTx) : List U8 :=
  le32Bytes t.tx.version ++ (t.inputCount.bytes ++ (t.input.flatMap SpelledInput.bytes ++
    (t.outputCount.bytes ++ (t.output.flatMap SpelledOutput.bytes ++ le32Bytes t.tx.lockTime))))

/-- The varints of the transaction, in the order in which they are read. -/
def varints (t : SpelledTx) : List VarintSpelling :=
  t.inputCount :: (t.input.map SpelledInput.scriptLength ++
    t.outputCount :: t.output.map SpelledOutput.scriptLength)

end SpelledTx

/-! ## What the parser has read -/

section Consumes

variable {A : Allocator}

theorem consumes_newArray {count size : ℕ} {c c' : Cursor U8} {u : Unit}
    (h : newArray A count size c = .ok (u, c')) : c = c' := by
  unfold newArray at h
  split_ifs at h
  cases h
  rfl

theorem consumes_pullScript {c : Cursor U8} {r : (n : U64) × Bytes n.toNat} {rest : List U8}
    (h : pullScript A c = .ok (r, some rest)) :
    ∃ s : VarintSpelling, s.value = r.1 ∧ c = some (s.bytes ++ (r.2.1 ++ rest)) := by
  obtain ⟨⟨n, c₁⟩, hn, h⟩ := of_bind_ok h
  obtain ⟨⟨u, c₂⟩, hu, h⟩ := of_bind_ok h
  obtain ⟨⟨script, c₃⟩, hscript, h⟩ := of_bind_ok h
  cases h
  obtain rfl := consumes_newArray hu
  obtain rfl := consumes_pullCopy hscript
  exact consumes_pullVarint hn

theorem consumes_pullInput {c : Cursor U8} {input : BitcoinTxInput} {rest : List U8}
    (h : pullInput A c = .ok (input, some rest)) :
    ∃ s : SpelledInput, s.input = input ∧ c = some (s.bytes ++ rest) := by
  obtain ⟨⟨txid, c₁⟩, htxid, h⟩ := of_bind_ok h
  obtain ⟨⟨index, c₂⟩, hindex, h⟩ := of_bind_ok h
  obtain ⟨⟨r, c₃⟩, hscript, h⟩ := of_bind_ok h
  obtain ⟨⟨seq, c₄⟩, hseq, h⟩ := of_bind_ok h
  cases h
  obtain rfl := consumes_pullLe32 hseq
  obtain ⟨s, hs, rfl⟩ := consumes_pullScript hscript
  obtain rfl := consumes_pullLe32 hindex
  obtain rfl := consumes_pullCopy htxid
  exact ⟨⟨⟨txid, index, r.1, r.2.1, seq, r.2.2⟩, s, hs⟩, rfl, by
    simp only [SpelledInput.bytes, List.append_assoc]⟩

theorem consumes_pullOutput {c : Cursor U8} {output : BitcoinTxOutput} {rest : List U8}
    (h : pullOutput A c = .ok (output, some rest)) :
    ∃ s : SpelledOutput, s.output = output ∧ c = some (s.bytes ++ rest) := by
  obtain ⟨⟨amount, c₁⟩, hamount, h⟩ := of_bind_ok h
  obtain ⟨⟨r, c₂⟩, hscript, h⟩ := of_bind_ok h
  cases h
  obtain ⟨s, hs, rfl⟩ := consumes_pullScript hscript
  obtain rfl := consumes_pullLe64 hamount
  exact ⟨⟨⟨amount, r.1, r.2.1, r.2.2⟩, s, hs⟩, rfl, by
    simp only [SpelledOutput.bytes, List.append_assoc]⟩

variable {α τ : Type} {p : Pull α} {val : τ → α} {enc : τ → List U8}

theorem consumes_many
    (hp : ∀ {c a rest}, p c = .ok (a, some rest) → ∃ s, val s = a ∧ c = some (enc s ++ rest))
    {n : ℕ} {c : Cursor U8} {l : { l : List α // l.length = n }} {rest : List U8}
    (h : many p n c = .ok (l, some rest)) :
    ∃ ss : List τ, ss.map val = l.1 ∧ c = some (ss.flatMap enc ++ rest) := by
  induction n generalizing c with
  | zero =>
    cases h
    exact ⟨[], rfl, rfl⟩
  | succ n ih =>
    obtain ⟨⟨a, c₁⟩, ha, h⟩ := of_bind_ok h
    obtain ⟨⟨l', c₂⟩, hl, h⟩ := of_bind_ok h
    cases h
    obtain ⟨ss, hss, rfl⟩ := ih hl
    obtain ⟨s, hs, rfl⟩ := hp ha
    exact ⟨s :: ss, by rw [List.map_cons, hs, hss], by rw [List.flatMap_cons, List.append_assoc]⟩

theorem consumes_pullArray
    (hp : ∀ {c a rest}, p c = .ok (a, some rest) → ∃ s, val s = a ∧ c = some (enc s ++ rest))
    {size : ℕ} {c : Cursor U8} {r : (n : U64) × { l : List α // l.length = n.toNat }}
    {rest : List U8} (h : pullArray A size p c = .ok (r, some rest)) :
    ∃ (s : VarintSpelling) (ss : List τ), s.value = r.1 ∧ ss.map val = r.2.1 ∧
      c = some (s.bytes ++ (ss.flatMap enc ++ rest)) := by
  obtain ⟨⟨n, c₁⟩, hn, h⟩ := of_bind_ok h
  obtain ⟨⟨u, c₂⟩, hu, h⟩ := of_bind_ok h
  obtain ⟨⟨l, c₃⟩, hl, h⟩ := of_bind_ok h
  cases h
  obtain rfl := consumes_newArray hu
  obtain ⟨ss, hss, rfl⟩ := consumes_many hp hl
  obtain ⟨s, hs, hc⟩ := consumes_pullVarint hn
  exact ⟨s, ss, hs, hss, hc⟩

/-- The bytes of an accepted transaction are its fields with some spelling of each varint. -/
theorem consumes_parse {c : Cursor U8} {tx : BitcoinTx} {rest : List U8}
    (h : BitcoinTx.parse A c = .ok (tx, some rest)) :
    ∃ t : SpelledTx, t.tx = tx ∧ c = some (t.bytes ++ rest) := by
  obtain ⟨⟨tx', c'⟩, htx, h⟩ := of_bind_ok h
  cases c' with
  | none => cases h
  | some rest' =>
    cases h
    obtain ⟨⟨version, c₁⟩, hversion, h⟩ := of_bind_ok htx
    obtain ⟨⟨i, c₂⟩, hin, h⟩ := of_bind_ok h
    obtain ⟨⟨o, c₃⟩, hout, h⟩ := of_bind_ok h
    obtain ⟨⟨lockTime, c₄⟩, hlock, h⟩ := of_bind_ok h
    cases h
    obtain rfl := consumes_pullLe32 hlock
    obtain ⟨so, os, hso, hos, rfl⟩ := consumes_pullArray consumes_pullOutput hout
    obtain ⟨si, is, hsi, his, rfl⟩ := consumes_pullArray consumes_pullInput hin
    obtain rfl := consumes_pullLe32 hversion
    exact ⟨⟨⟨version, i.1, i.2.1, o.1, o.2.1, lockTime, i.2.2, o.2.2⟩, si, is, so, os,
      hsi, his, hso, hos⟩, rfl, by simp only [SpelledTx.bytes, List.append_assoc]⟩

end Consumes

section Reads

variable {A : Allocator} (hA : A.Succeeds)

include hA

/-- The parser reads a transaction in each of its spellings. -/
theorem reads_spelledTx (t : SpelledTx) : Reads (pullBitcoinTx A) t.tx t.bytes := by
  have hin := reads_pullArray hA (sticky_pullInput hA)
    (fun s : SpelledInput => reads_pullInput hA s.input
      (s.value_scriptLength ▸ s.scriptLength.reads)) sizeofInput
    (t.value_inputCount ▸ t.inputCount.reads) t.input ⟨t.tx.input, t.tx.length_input⟩ t.map_input
  have hout := reads_pullArray hA (sticky_pullOutput hA)
    (fun s : SpelledOutput => reads_pullOutput hA s.output
      (s.value_scriptLength ▸ s.scriptLength.reads)) sizeofOutput
    (t.value_outputCount ▸ t.outputCount.reads) t.output ⟨t.tx.output, t.tx.length_output⟩
    t.map_output
  have h := reads_pullBitcoinTx hA t.tx hin hout
  simp only [List.append_assoc] at h
  exact h

theorem parse_spelledTx (t : SpelledTx) (rest : List U8) :
    BitcoinTx.parse A (some (t.bytes ++ rest)) = .ok (t.tx, some rest) := by
  rw [BitcoinTx.parse, bind_apply, (reads_spelledTx hA t).full]
  rfl

/-- What is accepted is a spelling of what is returned, and every spelling is accepted. -/
theorem parse_iff {bs rest : List U8} {tx : BitcoinTx} :
    BitcoinTx.parse A (some bs) = .ok (tx, some rest) ↔
      ∃ t : SpelledTx, t.tx = tx ∧ bs = t.bytes ++ rest := by
  constructor
  · intro h
    obtain ⟨t, ht, hbs⟩ := consumes_parse h
    exact ⟨t, ht, Option.some.inj hbs⟩
  · rintro ⟨t, rfl, rfl⟩
    exact parse_spelledTx hA t rest

end Reads

/-! ## One spelling for given bytes -/

/-- No spelling is the beginning of another one. -/
theorem VarintSpelling.append_inj {s s' : VarintSpelling} {x x' : List U8}
    (h : s.bytes ++ x = s'.bytes ++ x') : s = s' ∧ x = x' := by
  have hread := s.reads.full x
  rw [h, s'.reads.full x'] at hread
  obtain ⟨hv, hx⟩ := Prod.mk.inj (Except.ok.inj hread)
  obtain rfl := Option.some.inj hx
  have hbytes := List.append_cancel_right h
  obtain ⟨bytes, value, hr⟩ := s
  obtain ⟨bytes', value', hr'⟩ := s'
  obtain rfl : bytes = bytes' := hbytes
  obtain rfl : value' = value := hv
  exact ⟨rfl, rfl⟩

theorem SpelledInput.append_inj {s s' : SpelledInput} {x x' : List U8}
    (hi : s.input = s'.input) (h : s.bytes ++ x = s'.bytes ++ x') : s = s' ∧ x = x' := by
  obtain ⟨input, sl, hsl⟩ := s
  obtain ⟨input', sl', hsl'⟩ := s'
  obtain rfl : input = input' := hi
  simp only [SpelledInput.bytes, List.append_assoc, List.append_cancel_left_eq] at h
  obtain ⟨rfl, hx⟩ := VarintSpelling.append_inj h
  exact ⟨rfl, List.append_cancel_left (List.append_cancel_left hx)⟩

theorem SpelledOutput.append_inj {s s' : SpelledOutput} {x x' : List U8}
    (ho : s.output = s'.output) (h : s.bytes ++ x = s'.bytes ++ x') : s = s' ∧ x = x' := by
  obtain ⟨output, sl, hsl⟩ := s
  obtain ⟨output', sl', hsl'⟩ := s'
  obtain rfl : output = output' := ho
  simp only [SpelledOutput.bytes, List.append_assoc, List.append_cancel_left_eq] at h
  obtain ⟨rfl, hx⟩ := VarintSpelling.append_inj h
  exact ⟨rfl, List.append_cancel_left hx⟩

theorem flatMap_append_inj {α τ : Type} (val : τ → α) (enc : τ → List U8)
    (hinj : ∀ {s s' : τ} {x x' : List U8}, val s = val s' → enc s ++ x = enc s' ++ x' →
      s = s' ∧ x = x')
    {l l' : List τ} {x x' : List U8} (hval : l.map val = l'.map val)
    (h : l.flatMap enc ++ x = l'.flatMap enc ++ x') : l = l' ∧ x = x' := by
  induction l generalizing l' with
  | nil =>
    obtain rfl : l' = [] := List.map_eq_nil_iff.mp hval.symm
    exact ⟨rfl, h⟩
  | cons s l ih =>
    cases l' with
    | nil => simp at hval
    | cons s' l' =>
      obtain ⟨hs, hl⟩ := List.cons.inj hval
      rw [List.flatMap_cons, List.flatMap_cons, List.append_assoc, List.append_assoc] at h
      obtain ⟨rfl, h'⟩ := hinj hs h
      obtain ⟨rfl, hx⟩ := ih hl h'
      exact ⟨rfl, hx⟩

theorem SpelledTx.bytes_inj {t t' : SpelledTx} (htx : t.tx = t'.tx) (h : t.bytes = t'.bytes) :
    t = t' := by
  obtain ⟨tx, si, is, so, os, hsi, his, hso, hos⟩ := t
  obtain ⟨tx', si', is', so', os', hsi', his', hso', hos'⟩ := t'
  obtain rfl : tx = tx' := htx
  simp only [SpelledTx.bytes, List.append_cancel_left_eq] at h
  obtain ⟨rfl, h₁⟩ := VarintSpelling.append_inj h
  obtain ⟨rfl, h₂⟩ := flatMap_append_inj SpelledInput.input SpelledInput.bytes
    SpelledInput.append_inj (his.trans his'.symm) h₁
  obtain ⟨rfl, h₃⟩ := VarintSpelling.append_inj h₂
  obtain ⟨rfl, -⟩ := flatMap_append_inj SpelledOutput.output SpelledOutput.bytes
    SpelledOutput.append_inj (hos.trans hos'.symm) h₃
  rfl

/-! ## Writing it again -/

theorem SpelledInput.length_bytes (s : SpelledInput) :
    s.bytes.length = (inputBytes s.input).length + s.scriptLength.excess := by
  simp only [bytes, inputBytes, List.length_append, s.scriptLength.length_eq,
    s.value_scriptLength]
  omega

theorem SpelledOutput.length_bytes (s : SpelledOutput) :
    s.bytes.length = (outputBytes s.output).length + s.scriptLength.excess := by
  simp only [bytes, outputBytes, List.length_append, s.scriptLength.length_eq,
    s.value_scriptLength]
  omega

theorem SpelledInput.bytes_eq {s : SpelledInput} (h : s.scriptLength.Shortest) :
    s.bytes = inputBytes s.input := by
  rw [bytes, inputBytes, (VarintSpelling.shortest_iff _).mp h, s.value_scriptLength]

theorem SpelledOutput.bytes_eq {s : SpelledOutput} (h : s.scriptLength.Shortest) :
    s.bytes = outputBytes s.output := by
  rw [bytes, outputBytes, (VarintSpelling.shortest_iff _).mp h, s.value_scriptLength]

theorem length_flatMap_add {α τ : Type} {val : τ → α} {enc : τ → List U8} {enc' : α → List U8}
    {extra : τ → ℕ} (h : ∀ s, (enc s).length = (enc' (val s)).length + extra s) (l : List τ) :
    (l.flatMap enc).length = ((l.map val).flatMap enc').length + (l.map extra).sum := by
  induction l with
  | nil => rfl
  | cons s l ih =>
    simp only [List.flatMap_cons, List.map_cons, List.length_append, List.sum_cons, h s, ih]
    omega

namespace SpelledTx

variable {t : SpelledTx}

/-- The varints account for all the bytes that writing the transaction again saves. -/
theorem length_bytes (t : SpelledTx) :
    t.bytes.length = (txBytes t.tx).length + (t.varints.map VarintSpelling.excess).sum := by
  have hin := length_flatMap_add SpelledInput.length_bytes t.input
  have hout := length_flatMap_add SpelledOutput.length_bytes t.output
  rw [t.map_input] at hin
  rw [t.map_output] at hout
  simp only [bytes, txBytes, varints, List.length_append, List.map_cons, List.map_append,
    List.sum_cons, List.sum_append, List.map_map, t.inputCount.length_eq, t.outputCount.length_eq,
    t.value_inputCount, t.value_outputCount, hin, hout]
  simp only [Function.comp_def]
  omega

theorem bytes_eq (h : ∀ s ∈ t.varints, s.Shortest) : t.bytes = txBytes t.tx := by
  have hin : t.input.flatMap SpelledInput.bytes = t.tx.input.flatMap inputBytes := by
    rw [← t.map_input, List.flatMap_map]
    refine List.flatMap_congr fun s hs => SpelledInput.bytes_eq (h _ ?_)
    exact List.mem_cons_of_mem _ (List.mem_append_left _ (List.mem_map_of_mem hs))
  have hout : t.output.flatMap SpelledOutput.bytes = t.tx.output.flatMap outputBytes := by
    rw [← t.map_output, List.flatMap_map]
    refine List.flatMap_congr fun s hs => SpelledOutput.bytes_eq (h _ ?_)
    exact List.mem_cons_of_mem _ (List.mem_append_right _
      (List.mem_cons_of_mem _ (List.mem_map_of_mem hs)))
  have hin' := (VarintSpelling.shortest_iff _).mp (h t.inputCount List.mem_cons_self)
  have hout' := (VarintSpelling.shortest_iff _).mp (h t.outputCount
    (List.mem_cons_of_mem _ (List.mem_append_right _ List.mem_cons_self)))
  rw [bytes, txBytes, hin, hout, hin', hout', t.value_inputCount, t.value_outputCount]

theorem txBytes_eq_iff (t : SpelledTx) :
    txBytes t.tx = t.bytes ↔ ∀ s ∈ t.varints, s.Shortest := by
  constructor
  · intro h s hs
    have hlen := t.length_bytes
    have hsum : (t.varints.map VarintSpelling.excess).sum = 0 := by
      rw [← h] at hlen
      omega
    rw [s.shortest_iff_excess]
    exact List.sum_eq_zero_iff.mp hsum _ (List.mem_map_of_mem hs)
  · intro h
    exact (bytes_eq h).symm

end SpelledTx

/-- **Writing an accepted transaction again.** What the parsing constructor took off the input
is one spelling of the fields that it returns. `linearize` of the result is no longer than that, is
accepted with the same result, and is the same bytes just when each varint had its shortest form. -/
theorem reencode {A : Allocator} (hA : A.Succeeds) {bs rest : List U8} {tx : BitcoinTx}
    (h : BitcoinTx.parse A (some bs) = .ok (tx, some rest)) :
    (∃! t : SpelledTx, t.tx = tx ∧ bs = t.bytes ++ rest) ∧
      ∀ t : SpelledTx, t.tx = tx → bs = t.bytes ++ rest →
        tx.linearize.length ≤ t.bytes.length ∧
        BitcoinTx.parse A (some tx.linearize) = .ok (tx, some []) ∧
        (tx.linearize = t.bytes ↔ ∀ s ∈ t.varints, s.Shortest) := by
  constructor
  · obtain ⟨t, htx, hbs⟩ := consumes_parse h
    refine ⟨t, ⟨htx, Option.some.inj hbs⟩, fun t' ht' => ?_⟩
    refine SpelledTx.bytes_inj (ht'.1.trans htx.symm) ?_
    exact List.append_cancel_right (ht'.2.symm.trans (Option.some.inj hbs))
  · rintro t rfl -
    have hparse := parse_append hA t.tx []
    have hlen := t.length_bytes
    rw [List.append_nil] at hparse
    rw [linearize_eq]
    exact ⟨by omega, hparse, t.txBytes_eq_iff⟩

/-- The blank transaction with its input count in three bytes. -/
def longBlank : List U8 := [1, 0, 0, 0, 0xfd, 0, 0, 0, 0xff, 0xff, 0xff, 0xff]

theorem parse_longBlank :
    BitcoinTx.parse (fun _ _ => true) (some longBlank) = .ok (BitcoinTx.blank, some []) := rfl

theorem reencode_longBlank :
    BitcoinTx.blank.linearize ≠ longBlank ∧
      ∃! t : SpelledTx, t.tx = BitcoinTx.blank ∧ longBlank = t.bytes ++ [] := by
  refine ⟨fun h => ?_, (reencode (fun _ _ => rfl) parse_longBlank).1⟩
  have hlen := congrArg List.length h
  rw [linearize_eq] at hlen
  exact absurd hlen (by decide)

end BitcoinIblt
