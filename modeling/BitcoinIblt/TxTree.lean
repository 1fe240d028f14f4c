import BitcoinIblt.Tx
import BitcoinIblt.TxSlice

/-!
# The pool: transactions by short id

`tx_tree`, a binary tree on the bits of the short ids, lowest bit first, with a leaf as soon as a
prefix is unique; and `ibltpool`, which keeps a mempool both in a tree and in a map by short id.

`TxSide.Valid p` says that a subtree belongs at the prefix `p`: its leaves match `p`, and its nodes
have at least two leaves. Two ids that match 48 bits are equal, so a valid tree has nodes at depths
below 48 only, and its walks end in time.
-/

namespace BitcoinIblt

/-! ## Bits of an id -/

namespace Txid48

/-- `(get_id() >> i) & 1` -/
def bit (id : Txid48) (i : ℕ) : Bool := id.getLsbD i

/-- The bits of `bitvec` are the lowest bits of the id. -/
def «matches» (id : Txid48) (bitvec : List Bool) : Bool :=
  (List.range bitvec.length).all fun i => id.bit i == bitvec.getD i false

theorem matches_iff {id : Txid48} {v : List Bool} :
    id.matches v = true ↔ ∀ i (h : i < v.length), id.bit i = v[i] := by
  simp only [«matches», List.all_eq_true, List.mem_range, beq_iff_eq]
  exact forall₂_congr fun i h => by rw [List.getD_eq_getElem _ _ h]

@[simp] theorem matches_nil (id : Txid48) : id.matches [] = true := rfl

theorem matches_append {id : Txid48} {v w : List Bool} :
    id.matches (v ++ w) = true ↔
      id.matches v = true ∧ ∀ i (h : i < w.length), id.bit (v.length + i) = w[i] := by
  simp only [matches_iff, List.length_append]
  constructor
  · intro h
    refine ⟨fun i hi => ?_, fun i hi => ?_⟩
    · rw [h i (by omega), List.getElem_append_left hi]
    · rw [h (v.length + i) (by omega), List.getElem_append_right (by omega)]
      simp
  · rintro ⟨hv, hw⟩ i hi
    by_cases hiv : i < v.length
    · rw [List.getElem_append_left hiv, hv i hiv]
    · rw [List.getElem_append_right (by omega), ← hw (i - v.length) (by omega)]
      congr 1
      omega

theorem matches_append_singleton {id : Txid48} {v : List Bool} {b : Bool} :
    id.matches (v ++ [b]) = true ↔ id.matches v = true ∧ id.bit v.length = b := by
  rw [matches_append]
  refine and_congr_right fun _ => ⟨fun h => h 0 (by simp), fun h i hi => ?_⟩
  obtain rfl : i = 0 := by simpa using hi
  exact h

/-- The walk for an id goes on to the side that matches it. -/
theorem matches_next {id : Txid48} {v : List Bool} (h : id.matches v = true) :
    id.matches (v ++ [id.bit v.length]) = true :=
  matches_append_singleton.mpr ⟨h, rfl⟩

/-- An id matches one vector of each length. -/
theorem eq_of_length_eq {id : Txid48} {v w : List Bool} (hv : id.matches v = true)
    (hw : id.matches w = true) (hlen : v.length = w.length) : v = w :=
  List.ext_getElem hlen fun i hi hi' =>
    (matches_iff.mp hv i hi).symm.trans (matches_iff.mp hw i hi')

/-- Ids that match the same 48 bits are equal. -/
theorem eq_of_matches {a b : Txid48} {v : List Bool} (ha : a.matches v = true)
    (hb : b.matches v = true) (hv : 48 ≤ v.length) : a = b := by
  apply BitVec.eq_of_getLsbD_eq
  intro i hi
  exact (matches_iff.mp ha i (by omega)).trans (matches_iff.mp hb i (by omega)).symm

end Txid48

/-! ## The tree -/

structure TxWithId48 where
  id48 : Txid48
  t : Tx

/-- What a pointer `u[side]` points to. -/
inductive TxSide
  | null
  | leaf (leaf : TxWithId48)
  | node (u : Bool → TxSide)

/-- The two pointers of a `tx_tree`. -/
abbrev TxTree := Bool → TxSide

namespace TxTree

/-- The constructor `tx_tree()`. -/
def new : TxTree := fun _ => .null

def insert (u : TxTree) (leaf : TxWithId48) (depth : ℕ) : Run TxTree :=
  if _h : 64 ≤ depth then .error .shiftTooFar
  else
    let side := leaf.id48.bit depth
    match u side with
    | .null => .ok (Function.update u side (.leaf leaf))
    | .leaf oldleaf => do
      let v ← insert new oldleaf (depth + 1)
      let v ← insert v leaf (depth + 1)
      return Function.update u side (.node v)
    | .node v => do
      let v ← insert v leaf (depth + 1)
      return Function.update u side (.node v)
termination_by 64 - depth

/-- The depths of the call `insert(leaf, depth)` and of the calls below it. -/
def insertDepths (u : TxTree) (leaf : TxWithId48) (depth : ℕ) : List ℕ :=
  if _h : 64 ≤ depth then [depth]
  else
    match u (leaf.id48.bit depth) with
    | .null => [depth]
    | .leaf oldleaf =>
      depth :: insertDepths new oldleaf (depth + 1) ++
        match insert new oldleaf (depth + 1) with
        | .ok v => insertDepths v leaf (depth + 1)
        | .error _ => []
    | .node v => depth :: insertDepths v leaf (depth + 1)
termination_by 64 - depth

/-- The loop of `get_unique_bitid` from the node at the prefix `v`, so at `i = v.length`. -/
def uniqueBitidFrom (id48 : Txid48) (t : TxTree) (v : List Bool) : Run (List Bool) :=
  if v.length < 48 then
    let side := id48.bit v.length
    match t side with
    | .null => .error .nullPointer
    | .node u => uniqueBitidFrom id48 u (v ++ [side])
    | .leaf leaf => if leaf.id48 = id48 then .ok (v ++ [side]) else .error .assertion
  else .error (.invalidArgument "tx not found")
termination_by 48 - v.length
decreasing_by simp only [List.length_append, List.length_singleton]; omega

def getUniqueBitid (t : TxTree) (id48 : Txid48) : Run (List Bool) := uniqueBitidFrom id48 t []

end TxTree

/-- All transactions below a pointer. -/
def TxSide.gather : TxSide → List Tx
  | .null => []
  | .leaf l => [l.t]
  | .node u => (u false).gather ++ (u true).gather

def TxTree.gather (t : TxTree) : List Tx := (t false).gather ++ (t true).gather

/-- The loop of `get_txs` with the bits `rest` of `vec` left. -/
def TxTree.getTxs (vec : List Bool) : List Bool → TxTree → List Tx
  | [], t => t.gather
  | b :: rest, t =>
    match t b with
    | .null => []
    | .leaf leaf => if leaf.id48.matches vec then [leaf.t] else []
    | .node u => getTxs vec rest u

/-! ## Valid trees -/

/-- The leaves below a pointer. -/
def TxSide.leaves : TxSide → List TxWithId48
  | .null => []
  | .leaf l => [l]
  | .node u => (u false).leaves ++ (u true).leaves

def TxTree.leaves (t : TxTree) : List TxWithId48 := (t false).leaves ++ (t true).leaves

/-- The subtree belongs at the prefix `p`. -/
def TxSide.Valid : TxSide → List Bool → Prop
  | .null, _ => True
  | .leaf l, p => l.id48.matches p = true
  | .node u, p => 2 ≤ ((u false).leaves ++ (u true).leaves).length ∧
      (u false).Valid (p ++ [false]) ∧ (u true).Valid (p ++ [true])

/-- The tree is the node at the prefix `p`. -/
def TxTree.Valid (t : TxTree) (p : List Bool) : Prop := ∀ b, (t b).Valid (p ++ [b])

theorem TxSide.valid_node {u : TxTree} {p : List Bool} :
    (TxSide.node u).Valid p ↔ 2 ≤ u.leaves.length ∧ TxTree.Valid u p := by
  rw [TxSide.Valid, TxTree.Valid, Bool.forall_bool]
  rfl

theorem TxSide.gather_eq (s : TxSide) : s.gather = s.leaves.map TxWithId48.t := by
  induction s with
  | null => rfl
  | leaf leaf => rfl
  | node u ih => rw [gather, leaves, List.map_append, ih false, ih true]

theorem TxTree.gather_eq (t : TxTree) : t.gather = t.leaves.map TxWithId48.t := by
  rw [gather, leaves, List.map_append, TxSide.gather_eq, TxSide.gather_eq]

/-- Leaves match the prefix. -/
theorem TxSide.Valid.matches {s : TxSide} {p : List Bool} (h : s.Valid p) :
    ∀ l ∈ s.leaves, l.id48.matches p = true := by
  induction s generalizing p with
  | null => exact fun l hl => absurd hl List.not_mem_nil
  | leaf leaf =>
    intro l hl
    rw [List.mem_singleton.mp hl]
    exact h
  | node u ih =>
    intro l hl
    rcases List.mem_append.mp hl with hl | hl
    · exact (Txid48.matches_append_singleton.mp (ih false h.2.1 l hl)).1
    · exact (Txid48.matches_append_singleton.mp (ih true h.2.2 l hl)).1

theorem TxTree.mem_leaves_of_side {t : TxTree} {b : Bool} {l : TxWithId48}
    (h : l ∈ (t b).leaves) : l ∈ t.leaves := by
  cases b with
  | false => exact List.mem_append_left _ h
  | true => exact List.mem_append_right _ h

/-- A leaf is on the side that its bit says. -/
theorem TxTree.Valid.mem_leaves {t : TxTree} {p : List Bool} (h : t.Valid p) {l : TxWithId48} :
    l ∈ t.leaves ↔ l ∈ (t (l.id48.bit p.length)).leaves := by
  rw [leaves, List.mem_append]
  constructor
  · rintro (hl | hl)
    · rwa [(Txid48.matches_append_singleton.mp ((h false).matches l hl)).2]
    · rwa [(Txid48.matches_append_singleton.mp ((h true).matches l hl)).2]
  · intro hl
    cases hb : l.id48.bit p.length with
    | false => exact Or.inl (hb ▸ hl)
    | true => exact Or.inr (hb ▸ hl)

theorem TxTree.Valid.matches {t : TxTree} {p : List Bool} (h : t.Valid p) :
    ∀ l ∈ t.leaves, l.id48.matches p = true := fun _ hl =>
  (Txid48.matches_append_singleton.mp ((h _).matches _ (h.mem_leaves.mp hl))).1

/-- The leaves of the two sides have different ids. -/
theorem TxTree.Valid.ids_nodup_of_sides {t : TxTree} {p : List Bool} (h : t.Valid p)
    (hs : ∀ b, ((t b).leaves.map TxWithId48.id48).Nodup) :
    (t.leaves.map TxWithId48.id48).Nodup := by
  rw [leaves, List.map_append]
  refine List.Nodup.append (hs false) (hs true) fun id h₀ h₁ => ?_
  obtain ⟨l₀, hl₀, rfl⟩ := List.mem_map.mp h₀
  obtain ⟨l₁, hl₁, heq⟩ := List.mem_map.mp h₁
  have hb₀ := (Txid48.matches_append_singleton.mp ((h false).matches l₀ hl₀)).2
  have hb₁ := (Txid48.matches_append_singleton.mp ((h true).matches l₁ hl₁)).2
  rw [heq, hb₀] at hb₁
  cases hb₁

theorem TxSide.Valid.ids_nodup {s : TxSide} {p : List Bool} (h : s.Valid p) :
    (s.leaves.map TxWithId48.id48).Nodup := by
  induction s generalizing p with
  | null => exact List.nodup_nil
  | leaf leaf => exact List.nodup_singleton _
  | node u ih =>
    have hu := (TxSide.valid_node.mp h).2
    exact hu.ids_nodup_of_sides fun b => ih b (hu b)

theorem TxTree.Valid.ids_nodup {t : TxTree} {p : List Bool} (h : t.Valid p) :
    (t.leaves.map TxWithId48.id48).Nodup :=
  h.ids_nodup_of_sides fun b => (h b).ids_nodup

/-- Below a node there is a leaf with another id than a given one. -/
theorem TxSide.Valid.exists_other {u : TxTree} {p : List Bool} (h : (TxSide.node u).Valid p)
    (id48 : Txid48) : ∃ l ∈ u.leaves, l.id48 ≠ id48 := by
  obtain ⟨hlen, hu⟩ := TxSide.valid_node.mp h
  have hnodup := hu.ids_nodup
  match hl : u.leaves with
  | [] => simp [hl] at hlen
  | [a] => simp [hl] at hlen
  | a :: b :: l =>
    by_cases ha : a.id48 = id48
    · refine ⟨b, by simp, fun hb => ?_⟩
      simp [hl, ha, hb] at hnodup
    · exact ⟨a, by simp, ha⟩

/-- Nodes are at depths below 48. -/
theorem TxSide.Valid.node_depth {u : TxTree} {p : List Bool} (h : (TxSide.node u).Valid p) :
    p.length < 48 := by
  have hu := (TxSide.valid_node.mp h).2
  by_contra hp
  obtain ⟨a, ha, -⟩ := h.exists_other 0
  obtain ⟨b, hb, hne⟩ := h.exists_other a.id48
  exact hne (Txid48.eq_of_matches (hu.matches b hb) (hu.matches a ha) (by omega))

/-! ## Insertion -/

theorem TxTree.leaves_update {t : TxTree} {side : Bool} {s : TxSide} {l : TxWithId48}
    (h : s.leaves.Perm (l :: (t side).leaves)) :
    TxTree.leaves (Function.update t side s) |>.Perm (l :: t.leaves) := by
  cases side with
  | false => exact h.append_right _
  | true => exact (h.append_left _).trans List.perm_middle

theorem TxTree.Valid.update {t : TxTree} {p : List Bool} (h : t.Valid p) {side : Bool} {s : TxSide}
    (hs : s.Valid (p ++ [side])) : TxTree.Valid (Function.update t side s) p := by
  intro b
  by_cases hb : b = side
  · subst hb
    rwa [Function.update_self]
  · rw [Function.update_of_ne hb]
    exact h b

theorem TxTree.valid_new (p : List Bool) : TxTree.new.Valid p := fun _ => trivial

/-- What is new to the tree is new to the side it goes to. -/
theorem TxTree.Valid.ne_of_mem_side {t : TxTree} {p : List Bool} (h : t.Valid p)
    {leaf : TxWithId48} (hnew : ∀ l ∈ t.leaves, l.id48 ≠ leaf.id48) :
    ∀ l ∈ (t (leaf.id48.bit p.length)).leaves, l.id48 ≠ leaf.id48 := by
  intro l hl
  have hbit := (Txid48.matches_append_singleton.mp ((h _).matches l hl)).2
  exact hnew l (h.mem_leaves.mpr (by rwa [hbit]))

/-- A leaf on the side where a new leaf goes leaves room for another level. -/
theorem TxTree.Valid.room {t : TxTree} {p : List Bool} (h : t.Valid p) {leaf : TxWithId48}
    (hleaf : leaf.id48.matches p = true) (hnew : ∀ l ∈ t.leaves, l.id48 ≠ leaf.id48)
    (hne : (t (leaf.id48.bit p.length)).leaves ≠ []) : p.length + 1 < 48 := by
  obtain ⟨l, hl⟩ := List.exists_mem_of_ne_nil _ hne
  by_contra hge
  have hlen : (p ++ [leaf.id48.bit p.length]).length = p.length + 1 := by simp
  exact h.ne_of_mem_side hnew l hl (Txid48.eq_of_matches ((h _).matches l hl)
    (Txid48.matches_next hleaf) (by omega))

/-- Inserting an id that is not in the tree gives a valid tree with one more leaf, and stays at
depths below 48. -/
theorem TxTree.insert_spec {t : TxTree} {p : List Bool} (h : t.Valid p) (leaf : TxWithId48)
    (hleaf : leaf.id48.matches p = true) (hp : p.length < 48)
    (hnew : ∀ l ∈ t.leaves, l.id48 ≠ leaf.id48) :
    (∃ t', t.insert leaf p.length = .ok t' ∧ t'.Valid p ∧ t'.leaves.Perm (leaf :: t.leaves)) ∧
      ∀ d ∈ t.insertDepths leaf p.length, d < 48 := by
  induction hn : 48 - p.length using Nat.strong_induction_on generalizing t p leaf with
  | _ n ih =>
    subst hn
    have hside := Txid48.matches_next hleaf
    have hlen : (p ++ [leaf.id48.bit p.length]).length = p.length + 1 := by simp
    have hvalid := h (leaf.id48.bit p.length)
    have hmem := h.ne_of_mem_side hnew
    have hroom := h.room hleaf hnew
    rw [insert, insertDepths, dif_neg (by omega), dif_neg (by omega)]
    simp only
    cases hs : t (leaf.id48.bit p.length) with
    | null =>
      refine ⟨⟨_, rfl, h.update hside, leaves_update (by rw [hs]; exact List.Perm.refl _)⟩,
        fun d hd => ?_⟩
      rw [List.mem_singleton.mp hd]
      exact hp
    | leaf oldleaf =>
      rw [hs] at hvalid hmem hroom
      have hp' := hroom (by simp [TxSide.leaves])
      have hne := hmem oldleaf (by simp [TxSide.leaves])
      obtain ⟨⟨v₁, h₁, hv₁, hl₁⟩, hd₁⟩ := ih _ (by omega) (TxTree.valid_new _) oldleaf hvalid
        (by omega) (fun l hl => absurd hl List.not_mem_nil) rfl
      obtain ⟨⟨v₂, h₂, hv₂, hl₂⟩, hd₂⟩ := ih _ (by omega) hv₁ leaf hside (by omega)
        (fun l hl => by rw [List.mem_singleton.mp (hl₁.mem_iff.mp hl)]; exact hne) rfl
      rw [hlen] at h₁ h₂ hd₁ hd₂
      have hl : v₂.leaves.Perm [leaf, oldleaf] := hl₂.trans (hl₁.cons leaf)
      refine ⟨⟨Function.update t (leaf.id48.bit p.length) (.node v₂), ?_,
        h.update (TxSide.valid_node.mpr ⟨hl.length_eq.ge, hv₂⟩),
        leaves_update (by rw [hs]; exact hl)⟩, fun d hd => ?_⟩
      · simp only [h₁, ok_bind, h₂]
        rfl
      · simp only [h₁, List.mem_append, List.mem_cons] at hd
        rcases hd with (rfl | hd) | hd
        · exact hp
        · exact hd₁ d hd
        · exact hd₂ d hd
    | node v =>
      rw [hs] at hvalid hmem hroom
      obtain ⟨hv₂, hv⟩ := TxSide.valid_node.mp hvalid
      have hp' := hroom (List.ne_nil_of_length_pos (Nat.lt_of_lt_of_le Nat.two_pos hv₂))
      obtain ⟨⟨v', h', hv', hl'⟩, hd'⟩ := ih _ (by omega) hv leaf hside (by omega) hmem rfl
      rw [hlen] at h' hd'
      refine ⟨⟨Function.update t (leaf.id48.bit p.length) (.node v'), ?_,
        h.update (TxSide.valid_node.mpr ⟨?_, hv'⟩), leaves_update (by rw [hs]; exact hl')⟩,
        fun d hd => ?_⟩
      · simp only [h', ok_bind]
        rfl
      · rw [hl'.length_eq, List.length_cons]
        omega
      · rcases List.mem_cons.mp hd with rfl | hd
        · exact hp
        · exact hd' d hd

/-- A leaf goes into an empty node, unless the node is below the last bit of a word. -/
theorem TxTree.insert_new {p : List Bool} (leaf : TxWithId48) (h : leaf.id48.matches p = true) :
    TxTree.new.insert leaf p.length = .error .shiftTooFar ∨
      ∃ v, TxTree.new.insert leaf p.length = .ok v ∧ v.Valid p ∧ v.leaves.Perm [leaf] := by
  rw [insert]
  split_ifs with hp
  · exact Or.inl rfl
  · refine Or.inr ⟨_, rfl, (TxTree.valid_new p).update ?_, TxTree.leaves_update ?_⟩
    · exact Txid48.matches_next h
    · exact List.Perm.refl _

/-- Inserting an id that is in the tree pushes both leaves below the last bit. -/
theorem TxTree.insert_clash {t : TxTree} {p : List Bool} (h : t.Valid p) {leaf l : TxWithId48}
    (hleaf : leaf.id48.matches p = true) (hl : l ∈ t.leaves) (hid : l.id48 = leaf.id48) :
    t.insert leaf p.length = .error .shiftTooFar := by
  induction hn : 64 - p.length using Nat.strong_induction_on generalizing t p l with
  | _ n ih =>
    subst hn
    have hside := Txid48.matches_next hleaf
    have hlen : (p ++ [leaf.id48.bit p.length]).length = p.length + 1 := by simp
    have hvalid := h (leaf.id48.bit p.length)
    have hbit := h.mem_leaves.mp hl
    rw [hid] at hbit
    rw [insert]
    split_ifs with hp
    · rfl
    cases hs : t (leaf.id48.bit p.length) with
    | null =>
      rw [hs] at hbit
      exact absurd hbit List.not_mem_nil
    | leaf oldleaf =>
      rw [hs] at hbit hvalid
      obtain rfl : l = oldleaf := List.mem_singleton.mp hbit
      simp only [hs, ← hlen]
      -- the old leaf alone goes one level down, then the new one meets it there
      obtain hend | ⟨v, hv, hvv, hvl⟩ := TxTree.insert_new l hvalid
      · rw [hend]
        rfl
      · rw [hv, ok_bind, ih _ (by omega) hvv hside (hvl.symm.subset (by simp)) hid rfl]
        rfl
    | node v =>
      rw [hs] at hbit hvalid
      simp only [hs, ← hlen]
      rw [ih _ (by omega) (TxSide.valid_node.mp hvalid).2 hside hbit hid rfl]
      rfl

/-! ## Looking up prefixes -/

/-- `get_txs` returns the transactions whose ids match, from left to right. -/
theorem TxTree.getTxs_eq {u : TxTree} {p : List Bool} (h : u.Valid p) (rest : List Bool) :
    u.getTxs (p ++ rest) rest =
      (u.leaves.filter fun l => l.id48.matches (p ++ rest)).map TxWithId48.t := by
  induction rest generalizing p u with
  | nil =>
    rw [getTxs, gather_eq, List.append_nil, List.filter_eq_self.mpr h.matches]
  | cons b rest ih =>
    have hassoc : p ++ b :: rest = (p ++ [b]) ++ rest := by simp
    -- the other side has nothing that matches
    have hother : ∀ c, c ≠ b →
        ((u c).leaves.filter fun l => l.id48.matches (p ++ b :: rest)) = [] := by
      intro c hc
      apply List.filter_eq_nil_iff.mpr
      intro l hl hm
      rw [hassoc, Txid48.matches_append, Txid48.matches_append_singleton] at hm
      exact hc ((Txid48.matches_append_singleton.mp ((h c).matches l hl)).2.symm.trans hm.1.2)
    have hfilter : (u.leaves.filter fun l => l.id48.matches (p ++ b :: rest)) =
        (u b).leaves.filter fun l => l.id48.matches (p ++ b :: rest) := by
      rw [leaves, List.filter_append]
      cases b with
      | false => rw [hother true (by simp), List.append_nil]
      | true => rw [hother false (by simp), List.nil_append]
    have hvalid := h b
    rw [hfilter, getTxs]
    cases hs : u b with
    | null => rfl
    | leaf l =>
      by_cases hm : l.id48.matches (p ++ b :: rest) = true
      · simp [TxSide.leaves, hm]
      · simp [TxSide.leaves, hm]
    | node v =>
      rw [hs] at hvalid
      rw [hassoc]
      exact ih (TxSide.valid_node.mp hvalid).2

theorem TxTree.mem_getTxs {u : TxTree} {p : List Bool} (h : u.Valid p) (rest : List Bool) {t : Tx} :
    t ∈ u.getTxs (p ++ rest) rest ↔
      ∃ l ∈ u.leaves, l.id48.matches (p ++ rest) = true ∧ l.t = t := by
  rw [getTxs_eq h, List.mem_map]
  simp only [List.mem_filter, and_assoc]

/-- For an id of the tree, `get_unique_bitid` returns a prefix that no other id has. -/
theorem TxTree.uniqueBitidFrom_ok {u : TxTree} {p : List Bool} (h : u.Valid p) (hp : p.length < 48)
    {l : TxWithId48} (hl : l ∈ u.leaves) :
    ∃ v, uniqueBitidFrom l.id48 u p = .ok v ∧ p <+: v ∧ p.length < v.length ∧ v.length ≤ 48 ∧
      ∀ l' ∈ u.leaves, l'.id48.matches v = true ↔ l'.id48 = l.id48 := by
  induction hn : 48 - p.length using Nat.strong_induction_on generalizing u p with
  | _ n ih =>
    subst hn
    have hbit := h.mem_leaves.mp hl
    have hside := Txid48.matches_next (h.matches l hl)
    have hvalid := h (l.id48.bit p.length)
    rw [uniqueBitidFrom, if_pos hp]
    simp only
    cases hs : u (l.id48.bit p.length) with
    | null =>
      rw [hs] at hbit
      exact absurd hbit List.not_mem_nil
    | leaf l' =>
      rw [hs] at hbit hvalid
      obtain rfl : l = l' := List.mem_singleton.mp hbit
      refine ⟨_, if_pos rfl, List.prefix_append _ _, by simp, by simp; omega,
        fun l' hl' => ⟨fun hm => ?_, fun e => ?_⟩⟩
      · have hb := (Txid48.matches_append_singleton.mp hm).2
        have := h.mem_leaves.mp hl'
        rw [hb, hs] at this
        rw [List.mem_singleton.mp this]
      · rwa [e]
    | node v =>
      rw [hs] at hbit hvalid
      have hv := (TxSide.valid_node.mp hvalid).2
      have hdepth := hvalid.node_depth
      have hlen : (p ++ [l.id48.bit p.length]).length = p.length + 1 := by simp
      obtain ⟨w, hw, hpre, hlt, hle, huniq⟩ := ih _ (by omega) hv hdepth hbit rfl
      refine ⟨w, hw, (List.prefix_append _ _).trans hpre, by omega, hle,
        fun l' hl' => ⟨fun hm => ?_, fun e => ?_⟩⟩
      · -- what matches `w` matches the prefix of `v`, so it is below `v`
        refine (huniq l' ?_).mp hm
        obtain ⟨q, rfl⟩ := hpre
        have hb := (Txid48.matches_append_singleton.mp (Txid48.matches_append.mp hm).1).2
        have := h.mem_leaves.mp hl'
        rwa [hb, hs] at this
      · rw [e]
        exact (huniq l hbit).mpr rfl

/-- The shorter prefixes have another id below them. -/
theorem TxTree.uniqueBitidFrom_shortest {u : TxTree} {p : List Bool} (h : u.Valid p)
    {l : TxWithId48} (hl : l ∈ u.leaves) {v w : List Bool}
    (hv : uniqueBitidFrom l.id48 u p = .ok v) (hw : l.id48.matches w = true)
    (hp : p.length < w.length) (hlt : w.length < v.length) :
    ∃ l' ∈ u.leaves, l'.id48.matches w = true ∧ l'.id48 ≠ l.id48 := by
  induction hn : 48 - p.length using Nat.strong_induction_on generalizing u p with
  | _ n ih =>
    subst hn
    have hbit := h.mem_leaves.mp hl
    have hside := Txid48.matches_next (h.matches l hl)
    have hlen : (p ++ [l.id48.bit p.length]).length = p.length + 1 := by simp
    have hvalid := h (l.id48.bit p.length)
    rw [uniqueBitidFrom] at hv
    split_ifs at hv with hp48
    simp only at hv
    cases hs : u (l.id48.bit p.length) with
    | null =>
      rw [hs] at hbit
      exact absurd hbit List.not_mem_nil
    | leaf l' =>
      rw [hs] at hbit hv
      obtain rfl : l = l' := List.mem_singleton.mp hbit
      obtain rfl : p ++ [l.id48.bit p.length] = v := Except.ok.inj ((if_pos rfl).symm.trans hv)
      omega
    | node t =>
      rw [hs] at hbit hvalid hv
      have ht := (TxSide.valid_node.mp hvalid).2
      have hsub : ∀ l' ∈ TxTree.leaves t, l' ∈ u.leaves := by
        intro l' hl'
        have hb := (Txid48.matches_append_singleton.mp (ht.matches l' hl')).2
        rw [h.mem_leaves, hb, hs]
        exact hl'
      rcases Nat.lt_or_eq_of_le (Nat.succ_le_of_lt hp) with hlt' | heq
      · obtain ⟨l', hl', hm, hne⟩ := ih _ (by omega) ht hbit hv (by omega) rfl
        exact ⟨l', hsub l' hl', hm, hne⟩
      · -- `w` is the prefix of the node `t` itself
        obtain ⟨l', hl', hne⟩ := hvalid.exists_other l.id48
        refine ⟨l', hsub l' hl', ?_, hne⟩
        rw [Txid48.eq_of_length_eq hw hside (by omega)]
        exact ht.matches l' hl'

/-- For an id that is not in the tree, `get_unique_bitid` runs into a missing side or into the leaf
of another id. -/
theorem TxTree.uniqueBitidFrom_absent {u : TxTree} {p : List Bool} (h : u.Valid p)
    (hp : p.length < 48) {id48 : Txid48} (habsent : ∀ l ∈ u.leaves, l.id48 ≠ id48) :
    uniqueBitidFrom id48 u p = .error .nullPointer ∨
      uniqueBitidFrom id48 u p = .error .assertion := by
  induction hn : 48 - p.length using Nat.strong_induction_on generalizing u p with
  | _ n ih =>
    subst hn
    have hvalid := h (id48.bit p.length)
    have hside : ∀ l ∈ (u (id48.bit p.length)).leaves, l.id48 ≠ id48 :=
      fun l hl => habsent l (mem_leaves_of_side hl)
    rw [uniqueBitidFrom, if_pos hp]
    simp only
    cases hs : u (id48.bit p.length) with
    | null => exact Or.inl rfl
    | leaf l =>
      rw [hs] at hside
      exact Or.inr (if_neg (hside l (List.mem_singleton_self l)))
    | node v =>
      rw [hs] at hvalid hside
      have hdepth := hvalid.node_depth
      have hlen : (p ++ [id48.bit p.length]).length = p.length + 1 := by simp
      exact ih _ (by omega) (TxSide.valid_node.mp hvalid).2 hdepth hside rfl

theorem TxTree.getUniqueBitid_ok {u : TxTree} (h : u.Valid []) {l : TxWithId48}
    (hl : l ∈ u.leaves) :
    ∃ v, u.getUniqueBitid l.id48 = .ok v ∧ 0 < v.length ∧ v.length ≤ 48 ∧
      ∀ l' ∈ u.leaves, l'.id48.matches v = true ↔ l'.id48 = l.id48 := by
  obtain ⟨v, hv, -, hlt, hle, huniq⟩ := uniqueBitidFrom_ok h (by simp) hl
  exact ⟨v, hv, hlt, hle, huniq⟩

end BitcoinIblt
