import BitcoinIblt.TextPipeline

/-!
# The loops of the filters

`iblt-selection-heuristic`, `iblt-encode` and `iblt-decode` read blocks from one stream and print
lines to another. All have a loop over the block lines and in it one over the mempool lines
(`forBlocks`, `forMempools`); what they do with a line is a parameter here. If what they read is
what `write_blockline` and `write_mempool` printed, the loops see the lines one by one, and nothing
is lost or left over between two blocks (`forMempools_write`, `forBlocks_write`).
-/

namespace BitcoinIblt

open IStream

/-- How a filter stops before the end of its input. -/
inductive Stop
  | fault (f : Fault)
  /-- `errx` -/
  | errx (what : String)

/-- A filter that comes to its end has printed a text. -/
abbrev Filter := Except Stop

/-- A part of a filter that throws. -/
def Filter.of {α : Type} (x : Run α) : Filter α := x.mapError .fault

@[simp] theorem Filter.of_ok {α : Type} (a : α) : Filter.of (.ok a : Run α) = .ok a := rfl

theorem of_filter_ok {α : Type} {x : Run α} {a : α} (h : Filter.of x = .ok a) : x = .ok a := by
  cases x with
  | error f => cases h
  | ok b =>
    cases h
    rfl

/-! ## The code -/

variable (src : TxSource)

/-- `while (read_mempool(in, ...))`: the variables of the loop, and what a turn prints. -/
def forMempools {σ : Type} (body : σ → MempoolLine → Run (σ × List Char)) (st : σ) (u : Unknowns)
    (s : IStream) : Run (List Char × Unknowns × IStream) :=
  match _h : readMempool src u s with
  | .error f => .error f
  | .ok (none, u', s') => .ok ([], u', s')
  | .ok (some l, u', s') =>
    match body st l with
    | .error f => .error f
    | .ok (st', out) =>
      match forMempools body st' u' s' with
      | .error f => .error f
      | .ok (rest, r) => .ok (out ++ rest, r)
termination_by s.rest.length
decreasing_by exact of_readMempool _h

theorem forMempools_rest_le {σ : Type} {body : σ → MempoolLine → Run (σ × List Char)} {st : σ}
    {u : Unknowns} {s : IStream} {r : List Char × Unknowns × IStream}
    (h : forMempools src body st u s = .ok r) : r.2.2.rest.length ≤ s.rest.length := by
  fun_induction forMempools src body st u s generalizing r with
  | case1 => cases h
  | case2 _ _ _ _ _ hread =>
    cases h
    exact readMempool_rest_le hread
  | case3 => cases h
  | case4 => cases h
  | case5 _ _ _ _ _ _ hread _ _ _ _ _ hloop ih =>
    cases h
    exact (ih hloop).trans (of_readMempool hread).le

/-- What a filter does with a block line: it may read on, but puts nothing back. -/
structure BlockBody where
  run : BlockLine → Unknowns → IStream → Filter (List Char × Unknowns × IStream)
  reads_on : ∀ {line u s r}, run line u s = .ok r → r.2.2.rest.length ≤ s.rest.length

/-- `while (read_blockline(in, ...))` -/
def forBlocks (body : BlockBody) (u : Unknowns) (s : IStream) : Filter (List Char) :=
  match _h : readBlockline src u s with
  | .error f => .error (.fault f)
  | .ok (none, _, _) => .ok []
  | .ok (some line, u', s') =>
    match _h' : body.run line u' s' with
    | .error e => .error e
    | .ok (out, u'', s'') =>
      match forBlocks body u'' s'' with
      | .error e => .error e
      | .ok rest => .ok (out ++ rest)
termination_by s.rest.length
decreasing_by exact (body.reads_on _h').trans_lt (of_readBlockline _h)

/-! ## On lines that were written -/

variable {src}

/-- The stream is in front of `text`. At its end it may have looked ahead and seen that. -/
def StreamAt (text : List Char) (s : IStream) : Prop :=
  s = ofText text ∨ text = [] ∧ s.rest = []

theorem StreamAt.ofText (text : List Char) : StreamAt text (ofText text) := Or.inl rfl

theorem StreamAt.eq_of_ne_nil {text : List Char} {s : IStream} (h : StreamAt text s)
    (hne : text ≠ []) : s = IStream.ofText text :=
  h.resolve_right fun h' => hne h'.1

/-- At the end there is nothing to see. -/
theorem peek_of_rest_nil {s : IStream} (h : s.rest = []) : s.peek.1 = none := by
  unfold peek
  split_ifs
  · rw [h]
  · rfl

/-- Looking ahead changes nothing but at the end. -/
theorem StreamAt.peek {text : List Char} {s : IStream} (h : StreamAt text s) :
    StreamAt text s.peek.2 := by
  rcases h with rfl | ⟨htext, hs⟩
  · cases text with
    | nil => exact Or.inr ⟨rfl, rfl⟩
    | cons c text => exact Or.inl rfl
  · exact Or.inr ⟨htext, by rw [peek_rest, hs]⟩

/-- The text is at its end, or goes on with a block line. -/
def NextBlock (text : List Char) : Prop := text = [] ∨ ∃ rest, text = 'b' :: rest

theorem StreamAt.peek_ne {text : List Char} {s : IStream} (h : StreamAt text s)
    (hnext : NextBlock text) {c : Char} (hc : c ≠ 'b') : s.peek.1 ≠ some c := by
  rcases h with rfl | ⟨-, hs⟩
  · rcases hnext with rfl | ⟨rest, rfl⟩
    · exact fun h => nomatch h
    · exact fun h => hc (Option.some.inj h).symm
  · rw [peek_of_rest_nil hs]
    exact fun h => nomatch h

/-- The texts of blocks that start with a block line. -/
theorem nextBlock_flatMap {γ : Type} (ds : List γ) (line : γ → BlockLine)
    (tail : γ → List Char) : NextBlock (ds.flatMap fun d => writeBlockline (line d) ++ tail d) := by
  cases ds with
  | nil => exact Or.inl rfl
  | cons d ds => exact Or.inr ⟨_, rfl⟩

/-- What the loop prints for lines that have been read. -/
def runMempools {σ : Type} (body : σ → MempoolLine → Run (σ × List Char)) :
    σ → List MempoolLine → Run (List Char)
  | _, [] => .ok []
  | st, l :: ls => do
    let (st', out) ← body st l
    let rest ← runMempools body st' ls
    return out ++ rest

/-- The loop over mempool lines that were written, up to the next block. -/
theorem forMempools_write {σ : Type} (body : σ → MempoolLine → Run (σ × List Char))
    {ls : List MempoolLine} (hls : ∀ l ∈ ls, l.Named) {rest : List Char} (hrest : NextBlock rest)
    (u : Unknowns) {s : IStream} (hs : StreamAt (ls.flatMap writeMempool ++ rest) s) :
    ∃ ls', List.Forall₂ (MempoolLine.ReadAs src) ls ls' ∧ ∀ st out,
      runMempools body st ls' = .ok out →
      ∃ u' s', forMempools src body st u s = .ok (out, u', s') ∧ StreamAt rest s' := by
  induction ls generalizing u s with
  | nil =>
    refine ⟨[], List.Forall₂.nil, fun st out hrun => ?_⟩
    cases hrun
    have hnone : readMempool src u s = .ok (none, u, s.peek.2) := by
      unfold readMempool
      exact if_pos (hs.peek_ne hrest (by decide))
    refine ⟨u, s.peek.2, ?_, hs.peek⟩
    rw [forMempools, hnone]
  | cons l ls ih =>
    obtain ⟨hl, hls⟩ := List.forall_mem_cons.mp hls
    obtain ⟨l', u', hread, hl'⟩ := readMempool_write src hl u (ls.flatMap writeMempool ++ rest)
    obtain ⟨ls', hls', hloop⟩ := ih hls u' (StreamAt.ofText _)
    refine ⟨l' :: ls', List.Forall₂.cons hl' hls', fun st out hrun => ?_⟩
    obtain ⟨⟨st', out₁⟩, hbody, hrun⟩ := of_bind_ok hrun
    obtain ⟨out₂, hrest, hrun⟩ := of_bind_ok hrun
    cases hrun
    obtain ⟨u'', s'', hfor, hat⟩ := hloop st' out₂ hrest
    refine ⟨u'', s'', ?_, hat⟩
    have hs' : s = IStream.ofText (writeMempool l ++ (ls.flatMap writeMempool ++ rest)) := by
      rw [← List.append_assoc]
      exact hs.eq_of_ne_nil (List.cons_ne_nil _ _)
    rw [forMempools, hs', hread]
    simp only [hbody, hfor]

/-- The loop over blocks that were written, each as its block line and a `tail`. -/
theorem forBlocks_write (body : BlockBody) {γ δ : Type} (line : γ → BlockLine)
    (tail : γ → List Char) (text : δ → List Char) (R : γ → δ → Prop) (ds : List γ)
    (hbody : ∀ d ∈ ds, ∀ line' u rest, BlockLine.ReadAs src (line d) line' → NextBlock rest →
      ∃ e u' s', body.run line' u (IStream.ofText (tail d ++ rest)) = .ok (text e, u', s') ∧
        StreamAt rest s' ∧ R d e)
    (u : Unknowns) {s : IStream}
    (hs : StreamAt (ds.flatMap fun d => writeBlockline (line d) ++ tail d) s) :
    ∃ es, forBlocks src body u s = .ok (es.flatMap text) ∧ List.Forall₂ R ds es := by
  induction ds generalizing u s with
  | nil =>
    have hne : s.peek.1 ≠ some 'b' := by
      rcases hs with rfl | ⟨-, hs⟩
      · exact fun h => nomatch h
      · rw [peek_of_rest_nil hs]
        exact fun h => nomatch h
    have hnone : readBlockline src u s = .ok (none, u, s.peek.2) := by
      rw [readBlockline]
      exact if_pos hne
    refine ⟨[], ?_, List.Forall₂.nil⟩
    rw [forBlocks, hnone]
    rfl
  | cons d ds ih =>
    obtain ⟨hd, hds⟩ := List.forall_mem_cons.mp hbody
    let rest := ds.flatMap fun d => writeBlockline (line d) ++ tail d
    obtain ⟨line', u₁, hline, hread⟩ := readBlockline_write src (line d) u (tail d ++ rest)
    obtain ⟨e, u₂, s₂, hrun, hat, he⟩ :=
      hd line' u₁ rest hread (nextBlock_flatMap ds line tail)
    obtain ⟨es, hfor, hall⟩ := ih hds u₂ hat
    refine ⟨e :: es, ?_, List.Forall₂.cons he hall⟩
    have hs' : s = IStream.ofText (writeBlockline (line d) ++ (tail d ++ rest)) := by
      rw [← List.append_assoc]
      exact hs.eq_of_ne_nil (List.cons_ne_nil _ _)
    rw [forBlocks, hs', hline]
    dsimp only
    split
    · rename_i f hf
      rw [hrun] at hf
      cases hf
    · rename_i out' u' s' hf
      rw [hrun] at hf
      cases hf
      rw [hfor]
      rfl

/-! ## Maps that are read as they were written -/

/-- Every transaction of the map is found for its txid. -/
def Txmap.Resolved (src : TxSource) (m : Txmap) : Prop :=
  ∀ e ∈ m.entries, src.txFromTxid e.1 = some e.2

/-- Nothing is lost of such a map, but the order may be another. -/
theorem Txmap.ReadAs.perm {m m' : Txmap} (h : Txmap.ReadAs src m m') (hm : m.Resolved src) :
    m.entries.Perm m'.entries := by
  refine (List.perm_ext_iff_of_nodup m.entries_nodup m'.entries_nodup).mpr fun e => ?_
  obtain ⟨k, t⟩ := e
  rw [h k t]
  constructor
  · exact fun he => ⟨List.mem_map.mpr ⟨_, he, rfl⟩, hm _ he⟩
  · rintro ⟨hk, ht⟩
    obtain ⟨t', ht'⟩ := UnorderedMap.mem_keys_iff.mp hk
    have heq := hm _ ht'
    rw [ht] at heq
    cases heq
    exact ht'

end BitcoinIblt
