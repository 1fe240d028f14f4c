import BitcoinIblt.Hex
import BitcoinIblt.Tx

/-!
# The text format between the filters

`io.cpp`: a block line with two numbers and the txids of the block, then a line for each peer with
its name and the txids of its mempool. The readers look one character ahead to see which line
follows. What the writers print is read back line by line, up to the end of the text
(`text_round_trip`); a txid for which no transaction is found is left out, and nothing else is.
-/

namespace BitcoinIblt

/-! ## Reading txids -/

/-- Where `tx_from_txid` looks: the transactions that are known, if given, then `get_tx`. -/
structure TxSource where
  known : Option (UnorderedMap BitcoinTxid Tx)
  getTx : BitcoinTxid → Option Tx

def TxSource.txFromTxid (src : TxSource) (txid : BitcoinTxid) : Option Tx :=
  match src.known with
  | none => src.getTx txid
  | some known =>
    match known.find txid with
    | some t => some t
    | none => src.getTx txid

/-- The set `unknown`, if given, and the txids that `warnx` has named. -/
structure Unknowns where
  unknown : Option (UnorderedSet BitcoinTxid)
  warned : List BitcoinTxid

/-- `if (!unknown || unknown->insert(txid).second) warnx("could not find tx %s", hexstr);` -/
def Unknowns.note (u : Unknowns) (txid : BitcoinTxid) : Unknowns :=
  match u.unknown with
  | none => { u with warned := u.warned ++ [txid] }
  | some set =>
    if txid ∈ set then u else ⟨some (set.insert txid), u.warned ++ [txid]⟩

/-- `get_txid`: a txid, or `none` at the end of the line. -/
def getTxid (s : IStream) : Run (Option BitcoinTxid × IStream) :=
  match s.get with
  | (some '\n', s) => .ok (none, s)
  | (some ',', s) => do
    let (txid, s) ← readTxid s
    match txid with
    | none => throw (.runtimeError "Expected txid")
    | some txid => return (some txid, s)
  | _ => .error (.runtimeError "Expected ,")

theorem of_getTxid {s s' : IStream} {txid : BitcoinTxid} (h : getTxid s = .ok (some txid, s')) :
    s'.rest.length < s.rest.length := by
  unfold getTxid at h
  split at h
  · cases h
  · rename_i s₁ hget
    have hlt : s₁.rest.length < s.rest.length := by
      have h := s.get_rest_lt (c := ',') (by rw [hget])
      rwa [hget] at h
    obtain ⟨⟨txid', s₂⟩, hread, h⟩ := of_bind_ok h
    have hle := readTxid_rest_le hread
    cases txid' with
    | none => cases h
    | some txid' =>
      cases h
      exact hle.trans_lt hlt
  · cases h

variable (src : TxSource)

/-- `read_txids` -/
def readTxids (map : Txmap) (u : Unknowns) (s : IStream) : Run (Txmap × Unknowns × IStream) :=
  match _h : getTxid s with
  | .error f => .error f
  | .ok (none, s') => .ok (map, u, s')
  | .ok (some txid, s') =>
    match src.txFromTxid txid with
    | none => readTxids map (u.note txid) s'
    | some t => readTxids (map.insert txid t).1 u s'
termination_by s.rest.length
decreasing_by
  · exact of_getTxid _h
  · exact of_getTxid _h

/-! ## Lines -/

structure BlockLine where
  blocknum : U32
  overhead : U32
  block : Txmap

structure MempoolLine where
  peername : List Char
  mempool : Txmap

def blockWord : List Char := ['b', 'l', 'o', 'c', 'k']

def mempoolWord : List Char := ['m', 'e', 'm', 'p', 'o', 'o', 'l']

/-- `read_blockline`, or `none` if the next line is no block line. -/
def readBlockline (u : Unknowns) (s : IStream) : Run (Option BlockLine × Unknowns × IStream) :=
  let (c, s) := s.peek
  if c ≠ some 'b' then .ok (none, u, s)
  else
    let (blockstr, s) := s.getline ','
    if blockstr ≠ blockWord then .error (.runtimeError "Bad block line")
    else
      match s.readUnsigned with
      | (none, _) => .error (.runtimeError "Bad blocknum")
      | (some blocknum, s) =>
        let (c, s) := s.get
        if c ≠ some ',' then .error (.runtimeError "Bad blocknum or ,")
        else do
          -- not checked here, but `read_txids` throws if the stream has failed
          let (overhead, s) := s.readUnsigned
          let (block, u, s) ← readTxids src UnorderedMap.empty u s
          return (some ⟨blocknum, overhead.getD 0, block⟩, u, s)

/-- The loop over the name of the peer. -/
def readPeername (name : List Char) (s : IStream) : Run (List Char × IStream) :=
  if s.peek.1 = some ',' then .ok (name, s.peek.2)
  else if s.peek.2.peek.1 = some '\n' then .ok (name, s.peek.2.peek.2)
  else if _h : s.peek.2.peek.2.fail then .error (.runtimeError "Bad peername")
  else readPeername (name ++ [s.peek.2.peek.2.get.1.getD (Char.ofNat 255)]) s.peek.2.peek.2.get.2
termination_by s.left
decreasing_by
  exact (IStream.left_get_lt (Bool.eq_false_iff.mpr _h)).trans_le
    ((IStream.left_peek_le _).trans (IStream.left_peek_le _))

/-- `read_mempool`, or `none` if the next line is no mempool line. -/
def readMempool (u : Unknowns) (s : IStream) : Run (Option MempoolLine × Unknowns × IStream) :=
  let (c, s) := s.peek
  if c ≠ some 'm' then .ok (none, u, s)
  else
    let (mempoolstr, s) := s.getline ','
    if mempoolstr ≠ mempoolWord then .error (.runtimeError "Bad mempool line")
    else do
      let (peername, s) ← readPeername [] s
      let (mempool, u, s) ← readTxids src UnorderedMap.empty u s
      return (some ⟨peername, mempool⟩, u, s)

/-- The txids of a map, each after a comma. -/
def putTxids (m : Txmap) : List Char := m.entries.flatMap fun p => ',' :: putTxid p.1

/-- `write_blockline` -/
def writeBlockline (l : BlockLine) : List Char :=
  blockWord ++ [','] ++ Nat.toDigits 10 l.blocknum.toNat ++ [','] ++
    Nat.toDigits 10 l.overhead.toNat ++ putTxids l.block ++ ['\n']

/-- `write_mempool` -/
def writeMempool (l : MempoolLine) : List Char :=
  mempoolWord ++ [','] ++ l.peername ++ putTxids l.mempool ++ ['\n']

/-! ## Nothing is put back -/

section Progress

variable {src} {u : Unknowns} {s : IStream}

theorem getTxid_rest_le {r : Option BitcoinTxid × IStream} (h : getTxid s = .ok r) :
    r.2.rest.length ≤ s.rest.length := by
  obtain ⟨txid, s'⟩ := r
  cases txid with
  | some txid => exact (of_getTxid h).le
  | none =>
    unfold getTxid at h
    split at h
    · rename_i hget
      cases h
      have hle := s.get_rest_le
      rwa [hget] at hle
    · obtain ⟨⟨txid, s₂⟩, -, h⟩ := of_bind_ok h
      cases txid <;> cases h
    · cases h

theorem readTxids_rest_le {map : Txmap} {r : Txmap × Unknowns × IStream}
    (h : readTxids src map u s = .ok r) : r.2.2.rest.length ≤ s.rest.length := by
  fun_induction readTxids src map u s with
  | case1 => cases h
  | case2 _ _ _ s' hget =>
    cases h
    exact getTxid_rest_le hget
  | case3 _ _ _ txid s' hget _ ih => exact (ih h).trans (of_getTxid hget).le
  | case4 _ _ _ txid s' hget t _ ih => exact (ih h).trans (of_getTxid hget).le

theorem readPeername_rest_le {name : List Char} {r : List Char × IStream}
    (h : readPeername name s = .ok r) : r.2.rest.length ≤ s.rest.length := by
  fun_induction readPeername name s with
  | case1 => cases h; simp
  | case2 => cases h; simp
  | case3 => cases h
  | case4 name s _ _ _ ih =>
    have hle := s.peek.2.peek.2.get_rest_le
    rw [IStream.peek_rest, IStream.peek_rest] at hle
    exact (ih h).trans hle

/-- The word that starts a line is gone once it is read. -/
theorem word_rest_lt {c : Char} (h : s.peek.1 = some c) :
    (s.peek.2.getline ',').2.rest.length < s.rest.length := by
  obtain ⟨heq, hgood, hne⟩ := IStream.peek_some h
  rw [heq]
  exact IStream.getline_rest_lt hgood hne ','

/-- A block line that was read is gone. -/
theorem of_readBlockline {l : BlockLine} {u' : Unknowns} {s' : IStream}
    (h : readBlockline src u s = .ok (some l, u', s')) : s'.rest.length < s.rest.length := by
  unfold readBlockline at h
  dsimp only at h
  split_ifs at h with hpeek hstr
  · cases h
  · have hword := word_rest_lt (not_not.mp hpeek)
    have hnum := (s.peek.2.getline ',').2.readUnsigned_rest_le
    split at h
    · cases h
    · rename_i blocknum s₁ hread
      rw [hread] at hnum
      split_ifs at h with hcomma
      obtain ⟨⟨block, u₁, s₂⟩, htxids, h⟩ := of_bind_ok h
      cases h
      have hoverhead := s₁.get.2.readUnsigned_rest_le
      have hget := s₁.get_rest_le
      have hrest := readTxids_rest_le htxids
      dsimp only at hnum hrest ⊢
      omega

/-- A mempool line that was read is gone. -/
theorem of_readMempool {l : MempoolLine} {u' : Unknowns} {s' : IStream}
    (h : readMempool src u s = .ok (some l, u', s')) : s'.rest.length < s.rest.length := by
  unfold readMempool at h
  dsimp only at h
  split_ifs at h with hpeek hstr
  · cases h
  · have hword := word_rest_lt (not_not.mp hpeek)
    obtain ⟨name, hname, h⟩ := of_bind_ok h
    obtain ⟨⟨mempool, u₁, s₁⟩, htxids, h⟩ := of_bind_ok h
    cases h
    have hle := readPeername_rest_le hname
    have hrest := readTxids_rest_le htxids
    dsimp only at hrest ⊢
    omega

theorem readMempool_rest_le {r : Option MempoolLine × Unknowns × IStream}
    (h : readMempool src u s = .ok r) : r.2.2.rest.length ≤ s.rest.length := by
  obtain ⟨l, u', s'⟩ := r
  cases l with
  | some l => exact (of_readMempool h).le
  | none =>
    unfold readMempool at h
    dsimp only at h
    split_ifs at h with hpeek hstr
    · cases h
      simp
    · obtain ⟨name, -, h⟩ := of_bind_ok h
      obtain ⟨r, -, h⟩ := of_bind_ok h
      cases h

end Progress

/-! ## Blocks -/

/-- A block and the mempools of its peers. -/
structure BlockDesc where
  line : BlockLine
  mempools : List MempoolLine

/-- `while (read_mempool(in, ...))` -/
def readMempools (u : Unknowns) (s : IStream) : Run (List MempoolLine × Unknowns × IStream) :=
  match _h : readMempool src u s with
  | .error f => .error f
  | .ok (none, u', s') => .ok ([], u', s')
  | .ok (some l, u', s') =>
    match readMempools u' s' with
    | .error f => .error f
    | .ok (ls, r) => .ok (l :: ls, r)
termination_by s.rest.length
decreasing_by exact of_readMempool _h

theorem readMempools_rest_le {u : Unknowns} {s : IStream}
    {r : List MempoolLine × Unknowns × IStream} (h : readMempools src u s = .ok r) :
    r.2.2.rest.length ≤ s.rest.length := by
  fun_induction readMempools src u s generalizing r with
  | case1 => cases h
  | case2 _ _ u' s' hread =>
    cases h
    exact readMempool_rest_le hread
  | case3 => cases h
  | case4 _ _ l u' s' hread ls r' hloop ih =>
    cases h
    exact (ih hloop).trans (of_readMempool hread).le

/-- `while (read_blockline(in, ...)) { while (read_mempool(in, ...)) }` -/
def readBlocks (u : Unknowns) (s : IStream) : Run (List BlockDesc × Unknowns × IStream) :=
  match _h : readBlockline src u s with
  | .error f => .error f
  | .ok (none, u', s') => .ok ([], u', s')
  | .ok (some line, u', s') =>
    match _h' : readMempools src u' s' with
    | .error f => .error f
    | .ok (mempools, u'', s'') =>
      match readBlocks u'' s'' with
      | .error f => .error f
      | .ok (descs, r) => .ok (⟨line, mempools⟩ :: descs, r)
termination_by s.rest.length
decreasing_by exact (readMempools_rest_le src _h').trans_lt (of_readBlockline _h)

/-- The lines of a block and its mempools. -/
def writeBlockDesc (d : BlockDesc) : List Char :=
  writeBlockline d.line ++ d.mempools.flatMap writeMempool

/-! ## Reading what was written -/

/-- `m'` has the transactions that are found for the txids of `m`. -/
def Txmap.ReadAs (m m' : Txmap) : Prop :=
  ∀ k t, (k, t) ∈ m'.entries ↔ k ∈ m.keys ∧ src.txFromTxid k = some t

structure BlockLine.ReadAs (l l' : BlockLine) : Prop where
  blocknum : l'.blocknum = l.blocknum
  overhead : l'.overhead = l.overhead
  block : Txmap.ReadAs src l.block l'.block

structure MempoolLine.ReadAs (l l' : MempoolLine) : Prop where
  peername : l'.peername = l.peername
  mempool : Txmap.ReadAs src l.mempool l'.mempool

structure BlockDesc.ReadAs (d d' : BlockDesc) : Prop where
  line : BlockLine.ReadAs src d.line d'.line
  mempools : List.Forall₂ (MempoolLine.ReadAs src) d.mempools d'.mempools

/-- The name has no comma and no newline. -/
def MempoolLine.Named (l : MempoolLine) : Prop := ',' ∉ l.peername ∧ '\n' ∉ l.peername

section RoundTrip

open IStream

variable {src}

theorem getTxid_newline (rest : List Char) :
    getTxid (ofText ('\n' :: rest)) = .ok (none, ofText rest) := rfl

theorem getTxid_comma (txid : BitcoinTxid) (rest : List Char) :
    getTxid (ofText (',' :: (putTxid txid ++ rest))) = .ok (some txid, ofText rest) := by
  unfold getTxid
  rw [get_cons]
  show (readTxid (ofText (putTxid txid ++ rest)) >>= _) = _
  rw [readTxid_append]
  rfl

/-- A transaction that is found is in the map afterwards, whether its txid was there or not. -/
theorem mem_insert_found {map : Txmap}
    (hmap : ∀ k t, (k, t) ∈ map.entries → src.txFromTxid k = some t) {txid : BitcoinTxid} {t₀ : Tx}
    (htx : src.txFromTxid txid = some t₀) {k : BitcoinTxid} {t : Tx} :
    (k, t) ∈ (map.insert txid t₀).1.entries ↔
      (k, t) ∈ map.entries ∨ (k = txid ∧ src.txFromTxid k = some t) := by
  rw [UnorderedMap.mem_insert]
  refine or_congr_right' fun hk => ⟨?_, ?_⟩
  · rintro ⟨h, -⟩
    cases h
    exact ⟨rfl, htx⟩
  · rintro ⟨rfl, h⟩
    rw [htx] at h
    cases h
    refine ⟨rfl, fun b hb => hk ?_⟩
    have heq := hmap k b hb
    rw [htx] at heq
    cases heq
    exact hb

/-- The txids of a line are read, and the newline behind them. -/
theorem readTxids_append (txids : List BitcoinTxid) {map : Txmap}
    (hmap : ∀ k t, (k, t) ∈ map.entries → src.txFromTxid k = some t) (u : Unknowns)
    (rest : List Char) :
    ∃ map' u', readTxids src map u
        (ofText ((txids.flatMap fun k => ',' :: putTxid k) ++ '\n' :: rest)) =
          .ok (map', u', ofText rest) ∧
      ∀ k t, (k, t) ∈ map'.entries ↔
        (k, t) ∈ map.entries ∨ (k ∈ txids ∧ src.txFromTxid k = some t) := by
  induction txids generalizing map u with
  | nil =>
    refine ⟨map, u, ?_, fun k t => by simp⟩
    rw [List.flatMap_nil, List.nil_append, readTxids, getTxid_newline]
  | cons txid txids ih =>
    have hget : getTxid (ofText (((txid :: txids).flatMap fun k => ',' :: putTxid k) ++
        '\n' :: rest)) = .ok (some txid,
          ofText ((txids.flatMap fun k => ',' :: putTxid k) ++ '\n' :: rest)) := by
      rw [List.flatMap_cons, List.cons_append, List.cons_append, List.append_assoc]
      exact getTxid_comma txid _
    rw [readTxids, hget]
    dsimp only
    cases htx : src.txFromTxid txid with
    | none =>
      obtain ⟨map', u', hread, hmem⟩ := ih hmap (u.note txid)
      refine ⟨map', u', hread, fun k t => ?_⟩
      rw [hmem, List.mem_cons]
      refine or_congr_right (and_congr_left fun hk => ⟨Or.inr, fun h => h.resolve_left ?_⟩)
      rintro rfl
      rw [htx] at hk
      cases hk
    | some t₀ =>
      have hmap' : ∀ k t, (k, t) ∈ (map.insert txid t₀).1.entries → src.txFromTxid k = some t := by
        intro k t h
        rcases (mem_insert_found hmap htx).mp h with h | ⟨-, h⟩
        · exact hmap k t h
        · exact h
      obtain ⟨map', u', hread, hmem⟩ := ih hmap' u
      refine ⟨map', u', hread, fun k t => ?_⟩
      rw [hmem, mem_insert_found hmap htx, List.mem_cons]
      tauto

variable (src) in
/-- The map of a line is read. -/
theorem readTxids_putTxids (m : Txmap) (u : Unknowns) (rest : List Char) :
    ∃ m' u', readTxids src UnorderedMap.empty u (ofText (putTxids m ++ '\n' :: rest)) =
        .ok (m', u', ofText rest) ∧ Txmap.ReadAs src m m' := by
  have hempty : ∀ k t, (k, t) ∈ (UnorderedMap.empty : Txmap).entries →
      src.txFromTxid k = some t := by simp [UnorderedMap.empty]
  obtain ⟨m', u', hread, hmem⟩ := readTxids_append m.keys hempty u rest
  refine ⟨m', u', ?_, fun k t => ?_⟩
  · rw [putTxids, ← List.flatMap_map (f := Prod.fst) (g := fun k => ',' :: putTxid k)]
    exact hread
  · rw [hmem]
    simp [UnorderedMap.empty]

/-- The txids of a line, or its end, start with something else than a digit. -/
theorem putTxids_head (m : Txmap) (rest : List Char) :
    ∃ c tail, putTxids m ++ '\n' :: rest = c :: tail ∧ (c = ',' ∨ c = '\n') := by
  unfold putTxids
  cases m.entries with
  | nil => exact ⟨'\n', rest, rfl, Or.inr rfl⟩
  | cons p entries => exact ⟨',', _, rfl, Or.inl rfl⟩

/-- The name of a peer is read up to the comma or the newline behind it. -/
theorem readPeername_append {name : List Char} (hname : ',' ∉ name ∧ '\n' ∉ name) {c : Char}
    (hc : c = ',' ∨ c = '\n') (acc rest : List Char) :
    readPeername acc (ofText (name ++ c :: rest)) = .ok (acc ++ name, ofText (c :: rest)) := by
  induction name generalizing acc with
  | nil =>
    rw [readPeername, List.nil_append, List.append_nil]
    rcases hc with rfl | rfl
    · simp
    · simp
  | cons d name ih =>
    simp only [List.mem_cons, not_or] at hname
    obtain ⟨⟨hcomma, hname₁⟩, hnewline, hname₂⟩ := hname
    have hpeek : ∀ e, d ≠ e → ¬ (ofText (d :: (name ++ c :: rest))).peek.1 = some e :=
      fun e hne h => hne (Option.some.inj h)
    have hpeek₂ : ¬ (ofText (d :: (name ++ c :: rest))).peek.2.peek.1 = some '\n' :=
      hpeek _ (Ne.symm hnewline)
    have hfail : ¬ (ofText (d :: (name ++ c :: rest))).peek.2.peek.2.fail = true :=
      Bool.false_ne_true
    rw [readPeername, List.cons_append, if_neg (hpeek _ (Ne.symm hcomma)), if_neg hpeek₂,
      dif_neg hfail]
    have hstep := ih ⟨hname₁, hname₂⟩ (acc ++ [d])
    rw [List.append_assoc] at hstep
    exact hstep

variable (src)

/-- A mempool line is read. -/
theorem readMempool_write {l : MempoolLine} (hl : l.Named) (u : Unknowns) (rest : List Char) :
    ∃ l' u', readMempool src u (ofText (writeMempool l ++ rest)) =
        .ok (some l', u', ofText rest) ∧ MempoolLine.ReadAs src l l' := by
  obtain ⟨c, tail, hhead, hc⟩ := putTxids_head l.mempool rest
  obtain ⟨m', u', htxids, hm⟩ := readTxids_putTxids src l.mempool u rest
  refine ⟨⟨l.peername, m'⟩, u', ?_, rfl, hm⟩
  have htext : writeMempool l ++ rest =
      mempoolWord ++ ',' :: (l.peername ++ (putTxids l.mempool ++ '\n' :: rest)) := by
    simp [writeMempool]
  obtain ⟨hpeek, hword⟩ := peek_getline mempoolWord ',' (c := 'm') rfl (by decide)
    (l.peername ++ (putTxids l.mempool ++ '\n' :: rest))
  have hname := readPeername_append hl hc [] tail
  rw [← hhead, List.nil_append] at hname
  rw [htext]
  simp only [readMempool, hpeek, hword, hname, ok_bind, htxids]
  rfl

/-- A block line is read. -/
theorem readBlockline_write (l : BlockLine) (u : Unknowns) (rest : List Char) :
    ∃ l' u', readBlockline src u (ofText (writeBlockline l ++ rest)) =
        .ok (some l', u', ofText rest) ∧ BlockLine.ReadAs src l l' := by
  obtain ⟨c, tail, hhead, hc⟩ := putTxids_head l.block rest
  obtain ⟨m', u', htxids, hm⟩ := readTxids_putTxids src l.block u rest
  refine ⟨⟨l.blocknum, l.overhead, m'⟩, u', ?_, rfl, rfl, hm⟩
  have hdigit : c.isDigit = false := by
    rcases hc with rfl | rfl
    · rfl
    · rfl
  have hoverhead := readUnsigned_append l.overhead hdigit tail
  rw [← hhead] at hoverhead
  have hblocknum := readUnsigned_append l.blocknum (c := ',') rfl
    (Nat.toDigits 10 l.overhead.toNat ++ (putTxids l.block ++ '\n' :: rest))
  have htext : writeBlockline l ++ rest = blockWord ++ ',' ::
      (Nat.toDigits 10 l.blocknum.toNat ++ ',' ::
        (Nat.toDigits 10 l.overhead.toNat ++ (putTxids l.block ++ '\n' :: rest))) := by
    simp [writeBlockline]
  obtain ⟨hpeek, hword⟩ := peek_getline blockWord ',' (c := 'b') rfl (by decide)
    (Nat.toDigits 10 l.blocknum.toNat ++ ',' ::
      (Nat.toDigits 10 l.overhead.toNat ++ (putTxids l.block ++ '\n' :: rest)))
  rw [htext]
  simp only [readBlockline, hpeek, hword, hblocknum, get_cons, hoverhead, ok_bind, htxids]
  rfl

/-- The mempool lines are read, up to a line of another kind or the end of the text. -/
theorem readMempools_write {ls : List MempoolLine} (hls : ∀ l ∈ ls, l.Named) {rest : List Char}
    (hrest : (ofText rest).peek.1 ≠ some 'm') (u : Unknowns) :
    ∃ ls' u', readMempools src u (ofText (ls.flatMap writeMempool ++ rest)) =
        .ok (ls', u', (ofText rest).peek.2) ∧ List.Forall₂ (MempoolLine.ReadAs src) ls ls' := by
  induction ls generalizing u with
  | nil =>
    have hnone : readMempool src u (ofText rest) = .ok (none, u, (ofText rest).peek.2) := by
      rw [readMempool]
      exact if_pos hrest
    refine ⟨[], u, ?_, List.Forall₂.nil⟩
    rw [List.flatMap_nil, List.nil_append, readMempools, hnone]
  | cons l ls ih =>
    obtain ⟨hl, hls⟩ := List.forall_mem_cons.mp hls
    obtain ⟨l', u', hread, hl'⟩ := readMempool_write src hl u (ls.flatMap writeMempool ++ rest)
    obtain ⟨ls', u'', hloop, hls'⟩ := ih hls u'
    refine ⟨l' :: ls', u'', ?_, List.Forall₂.cons hl' hls'⟩
    rw [List.flatMap_cons, List.append_assoc, readMempools, hread]
    dsimp only
    rw [hloop]

/-- A text of blocks does not start with a mempool line. -/
theorem peek_blocks (descs : List BlockDesc) :
    (ofText (descs.flatMap writeBlockDesc)).peek.1 ≠ some 'm' := by
  cases descs with
  | nil => decide
  | cons d descs =>
    intro h
    have hchar : 'b' = 'm' := Option.some.inj h
    exact absurd hchar (by decide)

/-- The blocks are read, from a stream that may have looked ahead. -/
theorem readBlocks_write {descs : List BlockDesc} (h : ∀ d ∈ descs, ∀ l ∈ d.mempools, l.Named)
    {s : IStream} (hs : s = ofText (descs.flatMap writeBlockDesc) ∨
      s = (ofText (descs.flatMap writeBlockDesc)).peek.2) (u : Unknowns) :
    ∃ descs' u' s', readBlocks src u s = .ok (descs', u', s') ∧ s'.rest = [] ∧
      List.Forall₂ (BlockDesc.ReadAs src) descs descs' := by
  induction descs generalizing s u with
  | nil =>
    have hpeek : s.peek.1 ≠ some 'b' ∧ s.peek.2.rest = [] := by
      rcases hs with rfl | rfl
      · exact ⟨by decide, rfl⟩
      · exact ⟨by decide, rfl⟩
    have hnone : readBlockline src u s = .ok (none, u, s.peek.2) := by
      rw [readBlockline]
      exact if_pos hpeek.1
    refine ⟨[], u, s.peek.2, ?_, hpeek.2, List.Forall₂.nil⟩
    rw [readBlocks, hnone]
  | cons d descs ih =>
    obtain ⟨hd, h⟩ := List.forall_mem_cons.mp h
    have hs : s = ofText (writeBlockline d.line ++ (d.mempools.flatMap writeMempool ++
        descs.flatMap writeBlockDesc)) := by
      rw [← List.append_assoc]
      rcases hs with rfl | rfl
      · rfl
      · rfl
    obtain ⟨line, u₁, hline, hl⟩ := readBlockline_write src d.line u
      (d.mempools.flatMap writeMempool ++ descs.flatMap writeBlockDesc)
    obtain ⟨mempools, u₂, hmempools, hm⟩ := readMempools_write src hd (peek_blocks descs) u₁
    obtain ⟨descs', u', s', hloop, hend, hdescs⟩ := ih h (Or.inr rfl) u₂
    refine ⟨⟨line, mempools⟩ :: descs', u', s', ?_, hend, List.Forall₂.cons ⟨hl, hm⟩ hdescs⟩
    rw [hs, readBlocks, hline]
    dsimp only
    rw [hmempools]
    dsimp only
    rw [hloop]

end RoundTrip

/-- **The text format round-trips.** The loop over the lines reads what the writers printed, with
the same numbers and names in the same order, and stops at the end of the text; a map has the
transactions that are found for the txids of the map that was printed. -/
theorem text_round_trip (u : Unknowns) (descs : List BlockDesc)
    (h : ∀ d ∈ descs, ∀ l ∈ d.mempools, l.Named) :
    ∃ descs' u' s',
      readBlocks src u (.ofText (descs.flatMap writeBlockDesc)) = .ok (descs', u', s') ∧
        s'.rest = [] ∧ List.Forall₂ (BlockDesc.ReadAs src) descs descs' :=
  readBlocks_write src h (Or.inl rfl) u

/-- A block and a peer with one transaction that is found. -/
theorem text_round_trip_oneTx : ∃ d' u' s',
    readBlocks ⟨none, oneTx.find⟩ ⟨none, []⟩
      (.ofText (writeBlockDesc ⟨⟨1, 80, oneTx⟩, [⟨['p'], oneTx⟩]⟩)) = .ok ([d'], u', s') ∧
        s'.rest = [] ∧ ∀ e, e ∈ d'.line.block.entries ↔ e ∈ oneTx.entries := by
  obtain ⟨descs', u', s', hread, hend, hall⟩ := text_round_trip ⟨none, oneTx.find⟩ ⟨none, []⟩
    [⟨⟨1, 80, oneTx⟩, [⟨['p'], oneTx⟩]⟩] (by simp [MempoolLine.Named])
  obtain ⟨d', ds, hd, hds, rfl⟩ := List.forall₂_cons_left_iff.mp hall
  obtain rfl := List.forall₂_nil_left_iff.mp hds
  rw [List.flatMap_singleton] at hread
  refine ⟨d', u', s', hread, hend, fun e => ?_⟩
  rw [hd.line.block e.1 e.2, UnorderedMap.keys, UnorderedMap.mem_keys_iff]
  show _ ∧ oneTx.find e.1 = some e.2 ↔ _
  rw [UnorderedMap.find_eq_some_iff]
  exact ⟨fun h => h.2, fun h => ⟨⟨e.2, h⟩, h⟩⟩

end BitcoinIblt
