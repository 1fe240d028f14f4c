import BitcoinIblt.Sha256

/-!
# Hashing in pieces

`struct sha256_ctx` and the functions on it. `Represents ctx m` says that the context stands where
the bytes `m` lead: the whole blocks of `m` are compressed and the rest is at the start of the
buffer, whatever the pieces were.
-/

namespace BitcoinIblt

open LittleEndian BlockHash

namespace Sha256

open Sha2 (Registers)

/-- `struct sha256_ctx` -/
structure Ctx where
  s : Registers
  bytes : U64
  buf : Bytes 64

/-- `memcpy(buf + bufsize, data, len)` -/
def memcpy (buf : Bytes 64) (bufsize : ℕ) (data : List U8) : Run (Bytes 64) :=
  if h : bufsize + data.length ≤ 64 then
    .ok ⟨overwrite buf.1 bufsize data, by rw [overwrite_length (by rwa [buf.2]), buf.2]⟩
  else
    .error .outOfRange

/-- The first `len` bytes at `data`. -/
def readBytes (data : List U8) (len : ℕ) : Run (List U8) :=
  if len ≤ data.length then .ok (data.take len) else .error .outOfRange

/-- Fill the buffer, and process it. -/
def addFill (ctx : Ctx) (data : List U8) : Run Ctx := do
  let bufsize := ctx.bytes.toNat % 64
  let buf ← memcpy ctx.buf bufsize (data.take (64 - bufsize))
  return ⟨transform ctx.s buf.1, ctx.bytes + BitVec.ofNat 64 (64 - bufsize), buf⟩

/-- Process full chunks directly from the source. -/
def addChunks (ctx : Ctx) (data : List U8) : Ctx × List U8 :=
  if 64 ≤ data.length then
    addChunks { ctx with s := transform ctx.s (data.take 64), bytes := ctx.bytes + 64 }
      (data.drop 64)
  else
    (ctx, data)
termination_by data.length
decreasing_by rw [List.length_drop]; omega

/-- Fill the buffer with what remains. -/
def addRest (ctx : Ctx) (bufsize : ℕ) (data : List U8) : Run Ctx := do
  if data.length = 0 then
    return ctx
  let buf ← memcpy ctx.buf bufsize data
  return { ctx with bytes := ctx.bytes + BitVec.ofNat 64 data.length, buf }

def add (ctx : Ctx) (data : List U8) : Run Ctx := do
  let bufsize := ctx.bytes.toNat % 64
  if 64 ≤ bufsize + data.length then
    let (ctx, data) := addChunks (← addFill ctx data) (data.drop (64 - bufsize))
    addRest ctx 0 data
  else
    let (ctx, data) := addChunks ctx data
    addRest ctx bufsize data

/-- `SHA256_INIT` -/
def init : Ctx where
  s := ⟨0x6a09e667, 0xbb67ae85, 0x3c6ef372, 0xa54ff53a, 0x510e527f, 0x9b05688c, 0x1f83d9ab,
    0x5be0cd19⟩
  bytes := 0
  buf := zeroBytes 64

/-- `check_sha256`: a context that is done may not be used again. -/
def check (ctx : Ctx) : Run Unit :=
  if ctx.bytes = BitVec.allOnes 64 then .error .assertion else .ok ()

/-- `sha256_update` -/
def update (ctx : Ctx) (p : List U8) : Run Ctx := do
  check ctx
  add ctx p

/-- `static const unsigned char pad[64] = {0x80}` -/
def pad : List U8 := 0x80 :: List.replicate 63 0

/-- `sha256_done`: the hash, and the context it leaves. -/
def done (ctx : Ctx) : Run (Bytes 32 × Ctx) := do
  let sizedesc := Sha2.toBE 8 (ctx.bytes <<< 3).toNat
  -- Add '1' bit to terminate, then all 0 bits, up to next block - 8.
  let ctx ← add ctx (← readBytes pad (1 + (119 - ctx.bytes.toNat % 64) % 64))
  -- Add number of bits of data (big endian)
  let ctx ← add ctx sizedesc
  return (⟨ctx.s.bytes, ctx.s.length_bytes⟩, { ctx with bytes := BitVec.allOnes 64 })

/-- `sha256` -/
def sha256 (p : List U8) : Run (Bytes 32) := do
  return (← done (← update init p)).1

/-! ## What a context represents -/

def initialWords : Vector U32 8 :=
  #v[init.s.a, init.s.b, init.s.c, init.s.d, init.s.e, init.s.f, init.s.g, init.s.h]

theorem initialWords_eq (t : Fin 8) : initialWords.get t = Sha2.initialWord t := by
  have hroot : ∀ t : Fin 8, initialWords.get t =
      BitVec.ofNat 32 (Nat.nthRoot 2 (Sha2.primes.get (t.castLE (by decide)) * 2 ^ 64)) := by
    decide +kernel
  rw [hroot, ← Sha2.initialWord_eq, Fin.val_castLE]

theorem init_eq : init.s = Sha2.initial := by
  calc init.s = ⟨initialWords.get 0, initialWords.get 1, initialWords.get 2, initialWords.get 3,
        initialWords.get 4, initialWords.get 5, initialWords.get 6, initialWords.get 7⟩ := rfl
    _ = Sha2.initial := by
      simp only [initialWords_eq]
      rfl

/-- The context stands where the bytes `m` lead. -/
structure Represents (ctx : Ctx) (m : List U8) : Prop where
  bytes : ctx.bytes = BitVec.ofNat 64 m.length
  absorbed : Absorbed Sha2.compress 64 Sha2.initial m ctx.s (ctx.buf.1.take (m.length % 64))

theorem represents_init : Represents init [] where
  bytes := rfl
  absorbed := by
    rw [init_eq]
    exact Absorbed.nil _

theorem memcpy_ok (buf : Bytes 64) {bufsize : ℕ} {data : List U8}
    (h : bufsize + data.length ≤ 64) :
    ∃ buf', memcpy buf bufsize data = .ok buf' ∧
      buf'.1.take (bufsize + data.length) = buf.1.take bufsize ++ data := by
  refine ⟨_, dif_pos h, ?_⟩
  have hlen : (buf.1.take bufsize ++ data).length = bufsize + data.length := by
    rw [List.length_append, List.length_take, buf.2, Nat.min_eq_left (by omega)]
  change (overwrite buf.1 bufsize data).take _ = _
  rw [overwrite, List.take_append_of_le_length hlen.ge, List.take_of_length_le hlen.le]

/-- The pad is long enough for what is taken of it. -/
theorem readBytes_pad {zeros : ℕ} (h : zeros ≤ 63) :
    readBytes pad (1 + zeros) = .ok (0x80 :: List.replicate zeros 0) := by
  have hpad : 1 + zeros ≤ pad.length := by
    rw [pad, List.length_cons, List.length_replicate]
    omega
  rw [readBytes, if_pos hpad, pad, Nat.add_comm, List.take_succ_cons, List.take_replicate,
    Nat.min_eq_left h]

namespace Represents

variable {ctx : Ctx} {m p : List U8}

theorem bufsize (h : Represents ctx m) : ctx.bytes.toNat % 64 = m.length % 64 := by
  rw [h.bytes, BitVec.toNat_ofNat]
  exact Nat.mod_mod_of_dvd _ ⟨2 ^ 58, rfl⟩

theorem bytes_add (h : Represents ctx m) (p : List U8) :
    ctx.bytes + BitVec.ofNat 64 p.length = BitVec.ofNat 64 (m ++ p).length := by
  rw [h.bytes, ← BitVec.ofNat_add, List.length_append]

theorem addFill (h : Represents ctx m) (hp : 64 ≤ m.length % 64 + p.length) :
    ∃ ctx', addFill ctx p = .ok ctx' ∧ Represents ctx' (m ++ p.take (64 - m.length % 64)) := by
  have hlt := Nat.mod_lt m.length (show 64 > 0 by decide)
  have hlen : (p.take (64 - m.length % 64)).length = 64 - m.length % 64 := by
    rw [List.length_take, Nat.min_eq_left (by omega)]
  have hfull : m.length % 64 + (p.take (64 - m.length % 64)).length = 64 := by omega
  obtain ⟨buf, hbuf, htake⟩ := memcpy_ok ctx.buf hfull.le
  have hbytes := h.bytes_add (p.take (64 - m.length % 64))
  have hfill := h.absorbed.fill (p := p.take (64 - m.length % 64)) (by decide)
    (by rw [h.absorbed.length_rest, hfull])
  rw [hfull, List.take_of_length_le buf.2.le] at htake
  rw [← htake, ← transform_eq] at hfill
  rw [hlen] at hbytes
  refine ⟨⟨transform ctx.s buf.1, ctx.bytes + BitVec.ofNat 64 (64 - m.length % 64), buf⟩, ?_,
    hbytes, ?_⟩
  · rw [Sha256.addFill, h.bufsize, hbuf]
    rfl
  · have hwhole : (m ++ p.take (64 - m.length % 64)).length % 64 = 0 := by
      rw [List.length_append, hlen]
      omega
    rwa [hwhole, List.take_zero]

theorem addChunks (h : Represents ctx m) (hm : m.length % 64 = 0) :
    ∃ whole, whole ++ (addChunks ctx p).2 = p ∧ (addChunks ctx p).2.length < 64 ∧
      (m ++ whole).length % 64 = 0 ∧ Represents (addChunks ctx p).1 (m ++ whole) := by
  fun_induction Sha256.addChunks ctx p generalizing m with
  | case1 ctx p hp ih =>
    have hlen : (p.take 64).length = 64 := by rw [List.length_take, Nat.min_eq_left hp]
    have hwhole : (m ++ p.take 64).length % 64 = 0 := by
      rw [List.length_append, hlen, Nat.add_mod_right, hm]
    have hbytes := h.bytes_add (p.take 64)
    have hblock := h.absorbed
    rw [hm, List.take_zero] at hblock
    have hnext := hblock.block (by decide) hlen
    rw [← transform_eq] at hnext
    rw [hlen] at hbytes
    obtain ⟨whole, hsplit, hlt, hmod, hrep⟩ := ih (m := m ++ p.take 64)
      ⟨hbytes, by rwa [hwhole, List.take_zero]⟩ hwhole
    refine ⟨p.take 64 ++ whole, ?_, hlt, ?_, ?_⟩
    · rw [List.append_assoc, hsplit, List.take_append_drop]
    · rwa [← List.append_assoc]
    · rwa [← List.append_assoc]
  | case2 ctx p hp =>
    refine ⟨[], List.nil_append p, Nat.not_le.mp hp, ?_, ?_⟩
    · rwa [List.append_nil]
    · rwa [List.append_nil]

theorem addRest (h : Represents ctx m) (hp : m.length % 64 + p.length < 64) :
    ∃ ctx', addRest ctx (m.length % 64) p = .ok ctx' ∧ Represents ctx' (m ++ p) := by
  by_cases hnil : p.length = 0
  · refine ⟨ctx, by rw [Sha256.addRest, if_pos hnil]; rfl, ?_⟩
    rwa [List.eq_nil_of_length_eq_zero hnil, List.append_nil]
  · obtain ⟨buf, hbuf, htake⟩ := memcpy_ok ctx.buf hp.le
    refine ⟨{ ctx with bytes := ctx.bytes + BitVec.ofNat 64 p.length, buf }, ?_, h.bytes_add p, ?_⟩
    · rw [Sha256.addRest, if_neg hnil, hbuf]
      rfl
    · have hmod : (m ++ p).length % 64 = m.length % 64 + p.length := by
        rw [List.length_append, Nat.add_mod, Nat.mod_eq_of_lt (by omega : p.length < 64),
          Nat.mod_eq_of_lt hp]
      have hkeep := h.absorbed.keep (p := p) (by rwa [h.absorbed.length_rest])
      rw [← htake, ← hmod] at hkeep
      exact hkeep

/-- `add` returns, writes no byte past the buffer, and takes the context on by its input. -/
theorem add (h : Represents ctx m) (p : List U8) :
    ∃ ctx', add ctx p = .ok ctx' ∧ Represents ctx' (m ++ p) := by
  by_cases hp : 64 ≤ m.length % 64 + p.length
  · obtain ⟨ctx₁, hfill, hrep₁⟩ := h.addFill hp
    have hwhole₁ : (m ++ p.take (64 - m.length % 64)).length % 64 = 0 := by
      rw [List.length_append, List.length_take]
      omega
    obtain ⟨whole, hsplit, hlt, hwhole₂, hrep₂⟩ := hrep₁.addChunks
      (p := p.drop (64 - m.length % 64)) hwhole₁
    obtain ⟨ctx₃, hrest, hrep₃⟩ := hrep₂.addRest (p := (Sha256.addChunks ctx₁
      (p.drop (64 - m.length % 64))).2) (by rwa [hwhole₂, Nat.zero_add])
    refine ⟨ctx₃, ?_, ?_⟩
    · rw [Sha256.add, h.bufsize, if_pos hp, hfill]
      rw [hwhole₂] at hrest
      exact hrest
    · rwa [List.append_assoc, List.append_assoc, hsplit, List.take_append_drop] at hrep₃
  · have hskip : Sha256.addChunks ctx p = (ctx, p) := by
      rw [Sha256.addChunks, if_neg (by omega)]
    obtain ⟨ctx', hrest, hrep⟩ := h.addRest (p := p) (Nat.not_le.mp hp)
    refine ⟨ctx', ?_, hrep⟩
    rw [Sha256.add, h.bufsize, if_neg hp, hskip]
    exact hrest

/-- The counter of `check_sha256` says how many bytes were added, modulo `2 ^ 64`. -/
theorem check (h : Represents ctx m) :
    check ctx = if m.length % 2 ^ 64 = 2 ^ 64 - 1 then .error .assertion else .ok () := by
  have hiff : ctx.bytes = BitVec.allOnes 64 ↔ m.length % 2 ^ 64 = 2 ^ 64 - 1 := by
    rw [h.bytes, ← BitVec.toNat_inj, BitVec.toNat_ofNat, BitVec.toNat_allOnes]
  simp only [Sha256.check, hiff]

theorem update (h : Represents ctx m) (hm : m.length % 2 ^ 64 ≠ 2 ^ 64 - 1) (p : List U8) :
    ∃ ctx', update ctx p = .ok ctx' ∧ Represents ctx' (m ++ p) := by
  obtain ⟨ctx', hadd, hrep⟩ := h.add p
  refine ⟨ctx', ?_, hrep⟩
  rw [Sha256.update, h.check, if_neg hm]
  exact hadd

/-- The bytes `sha256_done` takes from `pad`. -/
theorem readPad (h : Represents ctx m) :
    readBytes pad (1 + (119 - ctx.bytes.toNat % 64) % 64) =
      .ok (0x80 :: List.replicate ((55 - (m.length : ℤ)) % 64).toNat 0) := by
  have hzeros : (119 - m.length % 64) % 64 = ((55 - (m.length : ℤ)) % 64).toNat := by omega
  rw [h.bufsize, hzeros]
  apply readBytes_pad
  omega

theorem sizedesc (h : Represents ctx m) :
    Sha2.toBE 8 (ctx.bytes <<< 3).toNat = Sha2.toBE 8 (8 * m.length) := by
  have hshift : (ctx.bytes <<< 3).toNat = 8 * m.length % 256 ^ 8 := by
    rw [h.bytes, BitVec.toNat_shiftLeft, BitVec.toNat_ofNat, Nat.shiftLeft_eq]
    omega
  rw [hshift, Sha2.toBE_mod]

theorem done (h : Represents ctx m) : ∃ ctx', done ctx = .ok (Sha2.digest m, ctx') ∧
    ctx'.bytes = BitVec.allOnes 64 := by
  obtain ⟨ctx₁, hadd₁, hrep₁⟩ := h.add (0x80 :: List.replicate ((55 - (m.length : ℤ)) % 64).toNat 0)
  obtain ⟨ctx₂, hadd₂, hrep₂⟩ := hrep₁.add (Sha2.toBE 8 (8 * m.length))
  have hpadded : m ++ (0x80 :: List.replicate ((55 - (m.length : ℤ)) % 64).toNat 0) ++
      Sha2.toBE 8 (8 * m.length) = m ++ Sha2.padding m.length := by
    rw [List.append_assoc, Sha2.padding, List.cons_append]
  rw [hpadded] at hrep₂
  have hfinal : ctx₂.s = Sha2.final m := hrep₂.absorbed.state
  refine ⟨{ ctx₂ with bytes := BitVec.allOnes 64 }, ?_, rfl⟩
  rw [Sha256.done, h.readPad, ok_bind, hadd₁, ok_bind, h.sizedesc, hadd₂, ok_bind]
  simp only [hfinal]
  rfl

end Represents

theorem sha256_eq (p : List U8) : sha256 p = .ok (Sha2.digest p) := by
  obtain ⟨ctx, hupdate, hrep⟩ := represents_init.update (by decide) p
  obtain ⟨ctx', hdone, -⟩ := hrep.done
  rw [sha256, hupdate, ok_bind, hdone]
  rfl

/-! ## Pieces -/

/-- After `n` bytes, one of the pieces is to be added when the counter shows the mark of a context
that is done. -/
def Marked (n : ℕ) (ps : List (List U8)) : Prop :=
  ∃ k < ps.length, (n + (ps.take k).flatten.length) % 2 ^ 64 = 2 ^ 64 - 1

theorem not_marked_nil (n : ℕ) : ¬Marked n [] := by
  rintro ⟨k, hk, -⟩
  exact Nat.not_lt_zero k hk

theorem marked_cons {n : ℕ} {p : List U8} {ps : List (List U8)} :
    Marked n (p :: ps) ↔ n % 2 ^ 64 = 2 ^ 64 - 1 ∨ Marked (n + p.length) ps := by
  constructor
  · rintro ⟨k, hk, hmark⟩
    cases k with
    | zero => exact .inl hmark
    | succ k =>
      rw [List.take_succ_cons, List.flatten_cons, List.length_append, ← Nat.add_assoc] at hmark
      exact .inr ⟨k, Nat.lt_of_succ_lt_succ hk, hmark⟩
  · rintro (hmark | ⟨k, hk, hmark⟩)
    · exact ⟨0, Nat.succ_pos _, hmark⟩
    · refine ⟨k + 1, Nat.succ_lt_succ hk, ?_⟩
      rwa [List.take_succ_cons, List.flatten_cons, List.length_append, ← Nat.add_assoc]

/-- Fewer than `2 ^ 64` bytes in all, and something at the end: the mark is not met. -/
theorem not_marked_of_lt {n : ℕ} (ps : List (List U8)) {p : List U8}
    (h : n + (ps ++ [p]).flatten.length < 2 ^ 64) (hp : p ≠ []) : ¬Marked n (ps ++ [p]) := by
  rintro ⟨k, hk, hmark⟩
  have hpos := List.length_pos_iff.mpr hp
  rw [List.length_append, List.length_singleton, Nat.lt_succ_iff] at hk
  have hle : (ps.take k).flatten.length ≤ ps.flatten.length :=
    ((List.take_prefix k ps).flatten).length_le
  rw [List.take_append_of_le_length hk] at hmark
  rw [List.flatten_append, List.length_append, List.flatten_singleton] at h
  rw [Nat.mod_eq_of_lt (by omega)] at hmark
  omega

theorem Represents.marked {ctx : Ctx} {m : List U8} (h : Represents ctx m) {ps : List (List U8)}
    (hps : Marked m.length ps) : ps.foldlM Sha256.update ctx = .error .assertion := by
  induction ps generalizing ctx m with
  | nil => exact absurd hps (not_marked_nil _)
  | cons p ps ih =>
    rw [List.foldlM_cons]
    by_cases hm : m.length % 2 ^ 64 = 2 ^ 64 - 1
    · rw [Sha256.update, h.check, if_pos hm]
      rfl
    · obtain ⟨ctx', hupdate, hrep⟩ := h.update hm p
      have hrest := (marked_cons.mp hps).resolve_left hm
      rw [← List.length_append] at hrest
      rw [hupdate, ok_bind, ih hrep hrest]

theorem Represents.pieces {ctx : Ctx} {m : List U8} (h : Represents ctx m) {ps : List (List U8)}
    (hps : ¬Marked m.length ps) :
    ∃ ctx', ps.foldlM Sha256.update ctx = .ok ctx' ∧ Represents ctx' (m ++ ps.flatten) := by
  induction ps generalizing ctx m with
  | nil => exact ⟨ctx, rfl, by rwa [List.flatten_nil, List.append_nil]⟩
  | cons p ps ih =>
    have hm : m.length % 2 ^ 64 ≠ 2 ^ 64 - 1 := fun hm => hps (marked_cons.mpr (.inl hm))
    obtain ⟨ctx₁, hupdate, hrep₁⟩ := h.update hm p
    obtain ⟨ctx', hrest, hrep⟩ := ih hrep₁ fun hrest => by
      rw [List.length_append] at hrest
      exact hps (marked_cons.mpr (.inr hrest))
    refine ⟨ctx', ?_, ?_⟩
    · rw [List.foldlM_cons, hupdate, ok_bind, hrest]
    · rwa [List.flatten_cons, ← List.append_assoc]

/-- Hash the pieces one after the other. -/
def hashPieces (ps : List (List U8)) : Run (Bytes 32 × Ctx) := do
  done (← ps.foldlM update init)

theorem hashPieces_ok {ps : List (List U8)} (h : ¬Marked 0 ps) :
    ∃ ctx, hashPieces ps = .ok (Sha2.digest ps.flatten, ctx) ∧
      ctx.bytes = BitVec.allOnes 64 := by
  obtain ⟨ctx, hrun, hrep⟩ := represents_init.pieces h
  obtain ⟨ctx', hdone, hbytes⟩ := hrep.done
  refine ⟨ctx', ?_, hbytes⟩
  rw [hashPieces, hrun, ok_bind, hdone]
  rfl

/-- However a message is cut, the hash is that of the message: the only other outcome is the failed
assertion of a piece that comes at the one place in `2 ^ 64` where the counter shows the mark. A
context that is done takes no further piece. -/
theorem hashPieces_exact (ps : List (List U8)) :
    (hashPieces ps = .error .assertion ↔ Marked 0 ps) ∧
      (¬Marked 0 ps → ∃ ctx, hashPieces ps = .ok (Sha2.digest ps.flatten, ctx) ∧
        ∀ p, update ctx p = .error .assertion) := by
  constructor
  · constructor
    · intro hrun
      by_contra hps
      obtain ⟨ctx, hok, -⟩ := hashPieces_ok hps
      rw [hok] at hrun
      cases hrun
    · intro hps
      rw [hashPieces, represents_init.marked hps]
      rfl
  · intro hps
    obtain ⟨ctx, hok, hbytes⟩ := hashPieces_ok hps
    refine ⟨ctx, hok, fun p => ?_⟩
    rw [update, check, if_pos hbytes]
    rfl

theorem hashPieces_exact_two :
    ∃ ctx, hashPieces [[0x61], [0x62, 0x63]] = .ok (Sha2.digest [0x61, 0x62, 0x63], ctx) ∧
      ∀ p, update ctx p = .error .assertion :=
  (hashPieces_exact [[0x61], [0x62, 0x63]]).2
    (not_marked_of_lt [[0x61]] (by decide) (by decide))

end Sha256

end BitcoinIblt
