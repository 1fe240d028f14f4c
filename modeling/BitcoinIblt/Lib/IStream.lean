import Mathlib

/-!
# Input streams

`std::istream` over a text: the characters not read yet, `eofbit` and `failbit`. Every operation
first checks that the stream is good, and sets `failbit` if it is not. The lemmas say what each
operation reads from a text that starts with what it looks for, and that no operation puts anything
back.
-/

structure IStream where
  rest : List Char
  eof : Bool
  fail : Bool

namespace IStream

/-- A stream that has read nothing of the text. -/
def ofText (text : List Char) : IStream := ⟨text, false, false⟩

def good (s : IStream) : Bool := !s.eof && !s.fail

/-- `in.get()`: the next character; `none` is `EOF`. -/
def get (s : IStream) : Option Char × IStream :=
  if s.good then
    match s.rest with
    | [] => (none, { s with eof := true, fail := true })
    | c :: rest => (some c, { s with rest })
  else (none, { s with fail := true })

/-- `in.peek()` -/
def peek (s : IStream) : Option Char × IStream :=
  if s.good then
    match s.rest with
    | [] => (none, { s with eof := true })
    | c :: _ => (some c, s)
  else (none, { s with fail := true })

/-- `std::getline(in, str, delim)` into an empty string. The delimiter is read, but not stored. -/
def getline (s : IStream) (delim : Char) : List Char × IStream :=
  if s.good then
    let str := s.rest.takeWhile fun c => c ≠ delim
    match s.rest.dropWhile fun c => c ≠ delim with
    | [] => (str, ⟨[], true, str.isEmpty⟩)
    | _ :: rest => (str, { s with rest })
  else ([], { s with fail := true })

/-- `in.get(buf, n)`: at most `n - 1` characters, up to the end of the line. -/
def getBuf (s : IStream) (n : ℕ) : List Char × IStream :=
  if s.good then
    let chars := (s.rest.takeWhile fun c => c ≠ '\n').take (n - 1)
    let rest := s.rest.drop chars.length
    (chars, ⟨rest, decide (chars.length < n - 1) && rest.isEmpty, chars.isEmpty⟩)
  else ([], { s with fail := true })

/-- `std::isspace` -/
def isSpace (c : Char) : Bool := c = ' ' || ('\t' ≤ c && c ≤ '\r')

/-- A sign, and what follows it. -/
def takeSign : List Char → Bool × List Char
  | '+' :: rest => (false, rest)
  | '-' :: rest => (true, rest)
  | rest => (false, rest)

/-- `in >> n` for an `unsigned int`: blanks, a sign, digits. `none` if it fails. -/
def readUnsigned (s : IStream) : Option (BitVec 32) × IStream :=
  if s.good then
    match s.rest.dropWhile isSpace with
    | [] => (none, ⟨[], true, true⟩)
    | c :: rest =>
      let (negative, rest) := takeSign (c :: rest)
      let digits := rest.takeWhile Char.isDigit
      let rest := rest.dropWhile Char.isDigit
      let n := Nat.ofDigitChars 10 digits 0
      if digits.isEmpty || decide (2 ^ 32 ≤ n) then (none, ⟨rest, rest.isEmpty, true⟩)
      else
        (some (if negative then - BitVec.ofNat 32 n else BitVec.ofNat 32 n),
          ⟨rest, rest.isEmpty, false⟩)
  else (none, { s with fail := true })

/-! ## Reading what is there -/

@[simp] theorem get_cons (c : Char) (rest : List Char) :
    (ofText (c :: rest)).get = (some c, ofText rest) := rfl

@[simp] theorem peek_cons (c : Char) (rest : List Char) :
    (ofText (c :: rest)).peek = (some c, ofText (c :: rest)) := rfl

theorem takeWhile_append_cons {p : Char → Bool} {l : List Char} {c : Char}
    (hl : ∀ x ∈ l, p x = true) (hc : p c = false) (rest : List Char) :
    (l ++ c :: rest).takeWhile p = l ∧ (l ++ c :: rest).dropWhile p = c :: rest := by
  constructor
  · rw [List.takeWhile_append_of_pos hl, List.takeWhile_cons_of_neg (by simp [hc]), List.append_nil]
  · rw [List.dropWhile_append_of_pos hl, List.dropWhile_cons_of_neg (by simp [hc])]

theorem getline_append {str : List Char} {delim : Char} (h : delim ∉ str) (rest : List Char) :
    (ofText (str ++ delim :: rest)).getline delim = (str, ofText rest) := by
  have hne : ∀ c ∈ str, decide (c ≠ delim) = true := fun c hc => by
    rw [decide_eq_true_eq]
    exact fun e => h (e ▸ hc)
  obtain ⟨htake, hdrop⟩ :=
    takeWhile_append_cons (c := delim) (p := fun c => decide (c ≠ delim)) hne (by simp) rest
  simp only [getline, ofText, good, htake, hdrop]
  rfl

/-- A word before a delimiter is seen by its first character, and read. -/
theorem peek_getline (word : List Char) (delim : Char) {c : Char} (hc : word.head? = some c)
    (hdelim : delim ∉ word) (rest : List Char) :
    (ofText (word ++ delim :: rest)).peek = (some c, ofText (word ++ delim :: rest)) ∧
      (ofText (word ++ delim :: rest)).getline delim = (word, ofText rest) := by
  refine ⟨?_, getline_append hdelim rest⟩
  obtain ⟨w, rfl⟩ := List.head?_eq_some_iff.mp hc
  rfl

theorem getBuf_append {chars : List Char} (h : '\n' ∉ chars) (hne : chars ≠ []) (rest : List Char) :
    (ofText (chars ++ rest)).getBuf (chars.length + 1) = (chars, ofText rest) := by
  have hall : ∀ c ∈ chars, decide (c ≠ '\n') = true := fun c hc => by
    rw [decide_eq_true_eq]
    exact fun e => h (e ▸ hc)
  have htake : ((chars ++ rest).takeWhile fun c => decide (c ≠ '\n')).take (chars.length + 1 - 1) =
      chars := by
    rw [List.takeWhile_append_of_pos hall, Nat.add_sub_cancel, List.take_left]
  simp only [getBuf, ofText, good, htake]
  simp [hne]

theorem isSpace_of_isDigit {d : Char} (h : d.isDigit = true) : isSpace d = false := by
  simp only [Char.isDigit, Bool.and_eq_true, decide_eq_true_eq, ge_iff_le] at h
  have hlt : ¬ d ≤ '\r' := fun hle => absurd (h.1.trans hle) (by decide)
  have hne : d ≠ ' ' := by
    rintro rfl
    exact absurd h.1 (by decide)
  simp [isSpace, hlt, hne]

theorem takeSign_of_isDigit {d : Char} (h : d.isDigit = true) (rest : List Char) :
    takeSign (d :: rest) = (false, d :: rest) := by
  unfold takeSign
  split
  · rename_i heq
    cases heq
    exact absurd h (by decide)
  · rename_i heq
    cases heq
    exact absurd h (by decide)
  · rfl

/-- A number that is followed by something else than a digit is read. -/
theorem readUnsigned_append (n : BitVec 32) {c : Char} (hc : c.isDigit = false) (rest : List Char) :
    (ofText (Nat.toDigits 10 n.toNat ++ c :: rest)).readUnsigned =
      (some n, ofText (c :: rest)) := by
  have hdigit : ∀ d ∈ Nat.toDigits 10 n.toNat, d.isDigit = true := fun d hd =>
    Nat.isDigit_of_mem_toDigits (by decide) (by decide) hd
  obtain ⟨htake, hdrop⟩ := takeWhile_append_cons hdigit hc rest
  obtain ⟨d, ds, hds⟩ := List.exists_cons_of_ne_nil (Nat.toDigits_ne_nil (n := n.toNat) (b := 10))
  have hd : d.isDigit = true := hdigit d (by rw [hds]; exact List.mem_cons_self)
  have hspace : isSpace d = false := isSpace_of_isDigit hd
  have hsign : takeSign (d :: (ds ++ c :: rest)) = (false, d :: (ds ++ c :: rest)) :=
    takeSign_of_isDigit hd _
  have hlt : n.toNat < 4294967296 := n.isLt
  rw [hds, List.cons_append] at htake hdrop
  simp only [readUnsigned, ofText, good, hds, List.cons_append,
    List.dropWhile_cons_of_neg (show ¬ isSpace d = true by simp [hspace]), hsign, htake, hdrop]
  rw [← hds, Nat.ofDigitChars_ten_toDigits]
  simp [Nat.toDigits_ne_nil, hlt]

/-! ## Nothing is put back -/

variable {s : IStream}

theorem get_rest_lt {c : Char} (h : s.get.1 = some c) : s.get.2.rest.length < s.rest.length := by
  unfold get at h ⊢
  split_ifs at h ⊢
  · cases hr : s.rest with
    | nil => rw [hr] at h; cases h
    | cons d rest => simp

theorem get_rest_le : s.get.2.rest.length ≤ s.rest.length := by
  unfold get
  split_ifs
  · cases hr : s.rest with
    | nil => exact le_rfl
    | cons d rest => simp
  · exact le_rfl

/-- A read of nothing sets `failbit`. -/
theorem get_none (h : s.get.1 = none) : s.get.2.rest = s.rest ∧ s.get.2.fail = true := by
  unfold get at h ⊢
  split_ifs at h ⊢
  · cases hr : s.rest with
    | nil => exact ⟨rfl, rfl⟩
    | cons d rest => rw [hr] at h; cases h
  · exact ⟨rfl, rfl⟩

@[simp] theorem peek_rest : s.peek.2.rest = s.rest := by
  unfold peek
  split_ifs
  · cases hr : s.rest with
    | nil => rfl
    | cons d rest => exact hr
  · rfl

theorem peek_some {c : Char} (h : s.peek.1 = some c) :
    s.peek.2 = s ∧ s.good = true ∧ s.rest ≠ [] := by
  unfold peek at h ⊢
  split_ifs at h ⊢ with hg
  · cases hr : s.rest with
    | nil => rw [hr] at h; cases h
    | cons d rest => exact ⟨rfl, hg, List.cons_ne_nil d rest⟩

theorem length_dropWhile_le (p : Char → Bool) (l : List Char) :
    (l.dropWhile p).length ≤ l.length :=
  (List.dropWhile_sublist p).length_le

theorem getline_rest_lt (hg : s.good = true) (hne : s.rest ≠ []) (delim : Char) :
    (s.getline delim).2.rest.length < s.rest.length := by
  have hpos : 0 < s.rest.length := List.length_pos_iff.mpr hne
  have hle := length_dropWhile_le (fun c => c ≠ delim) s.rest
  unfold getline
  rw [if_pos hg]
  cases hd : s.rest.dropWhile fun c => c ≠ delim with
  | nil => exact hpos
  | cons c rest =>
    rw [hd, List.length_cons] at hle
    exact hle

theorem getline_rest_le (delim : Char) : (s.getline delim).2.rest.length ≤ s.rest.length := by
  have hle := length_dropWhile_le (fun c => c ≠ delim) s.rest
  unfold getline
  split_ifs
  · cases hd : s.rest.dropWhile fun c => c ≠ delim with
    | nil => exact Nat.zero_le _
    | cons c rest =>
      rw [hd, List.length_cons] at hle
      exact (Nat.le_succ _).trans hle
  · exact le_rfl

theorem getBuf_rest_le (n : ℕ) : (s.getBuf n).2.rest.length ≤ s.rest.length := by
  unfold getBuf
  split_ifs
  · exact (List.drop_sublist _ _).length_le
  · exact le_rfl

theorem length_takeSign_le (l : List Char) : (takeSign l).2.length ≤ l.length := by
  unfold takeSign
  split <;> simp

theorem readUnsigned_rest_le : s.readUnsigned.2.rest.length ≤ s.rest.length := by
  have hspace := length_dropWhile_le isSpace s.rest
  unfold readUnsigned
  split_ifs
  · cases hr : s.rest.dropWhile isSpace with
    | nil => exact Nat.zero_le _
    | cons c rest =>
      rw [hr] at hspace
      have hsign := length_takeSign_le (c :: rest)
      have hdigits := length_dropWhile_le Char.isDigit (takeSign (c :: rest)).2
      dsimp only
      split_ifs <;> exact hdigits.trans (hsign.trans hspace)
  · exact le_rfl

/-- What is left to read, and whether the stream can still fail. -/
def left (s : IStream) : ℕ := 2 * s.rest.length + if s.fail then 0 else 1

theorem left_get_lt (h : s.fail = false) : s.get.2.left < s.left := by
  have hs : s.left = 2 * s.rest.length + 1 := by simp [left, h]
  rw [hs]
  cases hc : s.get.1 with
  | none =>
    obtain ⟨hrest, hfail⟩ := get_none hc
    simp [left, hrest, hfail]
  | some c =>
    have hlt := get_rest_lt hc
    unfold left
    split_ifs <;> omega

theorem left_peek_le (s : IStream) : s.peek.2.left ≤ s.left := by
  have hfail : s.fail = true → s.peek.2.fail = true := by
    intro h
    simp [peek, good, h]
  unfold left
  rw [peek_rest]
  split_ifs with h₁ h₂ h₂
  · exact le_rfl
  · exact Nat.le_succ _
  · exact absurd (hfail h₂) h₁
  · exact le_rfl

end IStream
