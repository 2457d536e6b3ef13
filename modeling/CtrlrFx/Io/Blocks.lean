import CtrlrFx.Io.Bytewise

/-!
# Long blocks

`gbump` and `pbump` take an `int`, and `src/io/BinStream/BinStreamBuf.cpp:64–68,104–108` hands
them the size of a block, which is a `streamsize`. A block of 2^31 bytes or more so moves the
next position to the wrong place. Bulk transfers are transfers of single bytes exactly as long
as there is no such block.
-/

namespace CtrlrFx.Io.BinStreamBuf
open Base

variable {δ : Type} (v : Overrides δ)

/-- Byte by byte, no place is met with 2^31 bytes in the get area of which all are to be got. -/
def GetsShort : Nat → BinStreamBuf δ → Prop
  | 0, _ => True
  | n + 1, b =>
    min (n + 1) (b.egptr - b.gptr) < 2 ^ 31 ∧
      (0 ≤ (b.sbumpc v).1 → GetsShort n (b.sbumpc v).2)

/-- Byte by byte, no place is met with room for 2^31 bytes in the put area of which all are to be
put. -/
def PutsShort : List UInt8 → BinStreamBuf δ → Prop
  | [], _ => True
  | x :: xs, b =>
    min (xs.length + 1) (b.epptr - b.pptr) < 2 ^ 31 ∧
      (0 ≤ (b.sputc v x).1 → PutsShort xs (b.sputc v x).2)

variable {v}

theorem toInt32_long : toInt32 (2 ^ 31 : Nat) = -2 ^ 31 := by decide

/-- Got byte by byte, a block at the front of the get area comes first. -/
theorem getEach_block {b : BinStreamBuf δ} {n s : Nat} (hs : s ≤ b.egptr - b.gptr) (hn : s ≤ n) :
    getEach v n b = (b.bytesAt b.gptr s ++ (getEach v (n - s) (b.gbump s)).1,
      (getEach v (n - s) (b.gbump s)).2) := by
  induction s generalizing b n with
  | zero =>
    rw [gbump_zero]
    rfl
  | succ s ih =>
    cases n with
    | zero => omega
    | succ n =>
      have hg : b.hasGet := hasGet_iff.mpr (by omega)
      have hp : (b.gbump 1).gptr = b.gptr + 1 := gptr_gbump hg 1
      have he := egptr_gbump b 1
      have hc : ¬(((b.byteAt b.gptr).toNat : Int) < 0) := by omega
      rw [getEach, sbumpc_of_hasGet hg]
      simp only [if_neg hc, Int.toNat_natCast, UInt8.ofNat_toNat]
      rw [@ih (b.gbump 1) n (by omega) (by omega), gbump_succ, bytesAt, bytesAt_gbump, hp,
        Nat.add_sub_add_right, List.cons_append]

/-- Behind a block that is got byte by byte, the next position is behind it. -/
theorem gptr_getEach {b : BinStreamBuf δ} {n : Nat} (h0 : 0 < n) (hn : n ≤ b.egptr - b.gptr) :
    (getEach v n b).2.gptr = b.gptr + n := by
  have hg : b.hasGet := hasGet_iff.mpr (by omega)
  rw [getEach_block hn (Nat.le_refl n), Nat.sub_self]
  exact gptr_gbump hg n

/-- Behind a block that is put byte by byte, the next position is behind it. -/
theorem pptr_putEach {b : BinStreamBuf δ} {bs : List UInt8} (h0 : 0 < bs.length)
    (hn : bs.length ≤ b.epptr - b.pptr) : (putEach v bs b).2.pptr = b.pptr + bs.length := by
  induction bs generalizing b with
  | nil => exact absurd h0 (Nat.lt_irrefl 0)
  | cons x xs ih =>
    rw [List.length_cons] at hn
    have hg : b.hasPut := hasPut_iff.mpr (by omega)
    have hp := @pptr_copyIn δ b (isSome_of_hasPut hg) [x] (by rw [List.length_singleton]; omega)
    have he := epptr_copyIn b [x]
    have hc : ¬((x.toNat : Int) < 0) := by omega
    rw [List.length_singleton] at hp
    rw [putEach, sputc_of_hasPut hg, List.length_cons]
    simp only [if_neg hc]
    cases xs with
    | nil => exact hp
    | cons y ys =>
      rw [ih (Nat.zero_lt_succ _) (by omega), hp]
      omega

/-- After a block of 2^31 bytes, the next get position is not behind it. -/
theorem xsgetn_ne_of_long {b : BinStreamBuf δ} (h : 2 ^ 31 ≤ b.egptr - b.gptr) :
    b.xsgetn v (2 ^ 31) ≠ getEach v (2 ^ 31) b := by
  intro heq
  have hg : b.hasGet := hasGet_iff.mpr (by omega)
  have hp := @gptr_getEach δ v b (2 ^ 31) (by omega) h
  rw [← heq, xsgetn_of_hasGet hg (by omega) (Nat.min_eq_left h), Nat.sub_self] at hp
  have hb := gptr_gbump hg (toInt32 (2 ^ 31 : Nat))
  rw [toInt32_long] at hb hp
  have hx : (b.gbump (-2 ^ 31)).gptr = b.gptr + 2 ^ 31 := hp
  omega

/-- After a block of 2^31 bytes, the next put position is not behind it. -/
theorem xsputn_ne_of_long {b : BinStreamBuf δ} {bs : List UInt8} (hl : bs.length = 2 ^ 31)
    (h : 2 ^ 31 ≤ b.epptr - b.pptr) : b.xsputn v bs ≠ putEach v bs b := by
  intro heq
  have hg : b.hasPut := hasPut_iff.mpr (by omega)
  have hp := @pptr_putEach δ v b bs (by omega) (by omega)
  rw [← heq, xsputn_of_hasPut hg (by omega) (Nat.min_eq_left (by omega)), List.drop_length,
    List.take_length, hl] at hp
  have hb := @pptr_pbump δ { b with mem := Block.write b.mem b.pptr bs } (isSome_of_hasPut hg)
    (toInt32 bs.length)
  have hx : (b.copyIn bs).pptr = b.pptr + 2 ^ 31 := hp
  rw [copyIn, hb, hl, toInt32_long] at hx
  have hs : pptr { b with mem := Block.write b.mem b.pptr bs } = b.pptr := rfl
  omega

/-- Bulk gets of up to `n` bytes are gets of single bytes exactly if no long block is met. -/
theorem xsgetn_iff_getEach (b : BinStreamBuf δ) (n : Nat) :
    (∀ m ≤ n, b.xsgetn v m = getEach v m b) ↔ GetsShort v n b := by
  induction n generalizing b with
  | zero =>
    constructor
    · exact fun _ ↦ trivial
    · intro _ m hm
      rw [Nat.le_zero.mp hm]
      rfl
  | succ n ih =>
    rw [GetsShort, ← ih]
    constructor
    · intro h
      have hw : min (n + 1) (b.egptr - b.gptr) < 2 ^ 31 := by
        by_contra hlong
        exact xsgetn_ne_of_long (by omega) (h (2 ^ 31) (by omega))
      constructor
      · exact hw
      · intro hc m hm
        have hx := h (m + 1) (by omega)
        rw [xsgetn_succ (by omega), getEach, if_neg (by omega), if_neg (by omega), Prod.mk.injEq,
          List.cons.injEq] at hx
        exact Prod.ext hx.1.2 hx.2
    · rintro ⟨hw, h⟩ m hm
      cases m with
      | zero => rfl
      | succ m =>
        rw [xsgetn_succ (by omega), getEach]
        split
        · rfl
        · rw [h (by omega) m (by omega)]

/-- Bulk puts of the front of a list are puts of single bytes exactly if no long block is met. -/
theorem xsputn_iff_putEach (b : BinStreamBuf δ) (bs : List UInt8) :
    (∀ m, b.xsputn v (bs.take m) = putEach v (bs.take m) b) ↔ PutsShort v bs b := by
  induction bs generalizing b with
  | nil =>
    constructor
    · exact fun _ ↦ trivial
    · intro _ m
      rw [List.take_nil]
      rfl
  | cons x xs ih =>
    rw [PutsShort, ← ih]
    constructor
    · intro h
      have hw : min (xs.length + 1) (b.epptr - b.pptr) < 2 ^ 31 := by
        by_contra hlong
        apply @xsputn_ne_of_long δ v b ((x :: xs).take (2 ^ 31)) _ (by omega) (h (2 ^ 31))
        rw [List.length_take, List.length_cons]
        omega
      constructor
      · exact hw
      · intro hc m
        have hx := h (m + 1)
        have hm := List.length_take_le' m xs
        rw [List.take_succ_cons, xsputn_cons (by omega), putEach, if_neg (by omega),
          if_neg (by omega), Prod.mk.injEq, Nat.add_right_cancel_iff] at hx
        exact Prod.ext hx.1 hx.2
    · rintro ⟨hw, h⟩ m
      cases m with
      | zero => rfl
      | succ m =>
        have hm := List.length_take_le' m xs
        rw [List.take_succ_cons, xsputn_cons (by omega), putEach]
        split
        · rfl
        · rw [h (by omega) m]

/-- Bulk transfers are transfers of single bytes exactly if no block of 2^31 bytes is met. -/
theorem bulk_iff_bytewise (v : Overrides δ) (b : BinStreamBuf δ) (n : Nat) (bs : List UInt8) :
    ((∀ m ≤ n, b.xsgetn v m = getEach v m b) ↔ GetsShort v n b) ∧
      ((∀ m, b.xsputn v (bs.take m) = putEach v (bs.take m) b) ↔ PutsShort v bs b) :=
  ⟨xsgetn_iff_getEach b n, xsputn_iff_putEach b bs⟩

/-- A stream buffer without virtual functions of its own over 2^31 zero bytes to get. -/
def vast : BinStreamBuf Unit :=
  { mem := List.replicate (2 ^ 31) 0, get := some { beg := 0, next := 0, fin := 2 ^ 31 },
    put := none, dev := () }

/-- Got as one block, the bytes are still in front of the next position. -/
theorem vast_not_bytewise :
    vast.xsgetn (Overrides.base Unit) (2 ^ 31) ≠ getEach (Overrides.base Unit) (2 ^ 31) vast := by
  intro heq
  have hlong : 2 ^ 31 ≤ vast.egptr - vast.gptr := Nat.le_refl (2 ^ 31)
  exact xsgetn_ne_of_long hlong heq

end CtrlrFx.Io.BinStreamBuf
