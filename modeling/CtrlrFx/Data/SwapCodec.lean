import CtrlrFx.Data.Decoding

/-!
# Swapped binary codecs

`CtrlrFx/BufCodec.h:290–482` and `src/data/BufCodec.cpp`: values go into a byte buffer, and come
out of it, in the byte order that the host does not have. Words of two, four and eight bytes
are moved one byte after another by functions of their own; bytes, truth values, floating-point
numbers and arrays go through the templates of the native codecs.
-/

namespace CtrlrFx.Data
open Base

namespace Buffer

variable {T : Type}

/-- Takes items into the cells `i - 1` down to 0 of an array; `src/data/BufCodec.cpp:82–87`. -/
def getDown (b : Buffer T) (cells : List T) : Nat → List T × Buffer T
  | 0 => (cells, b)
  | i + 1 =>
    let r := b.getTo
    getDown r.2 (match r.1 with | some x => cells.set i x | none => cells) i

theorem available_lt_iff {b : Buffer T} {n : Nat} (h : b.pos ≤ b.lim) :
    b.available < n ↔ b.lim < b.pos + n := by
  rw [available_of_le h]
  omega

/-- Items put one after another are a block, and only the position moves with them. -/
theorem foldl_put (b : Buffer T) (xs : List T) :
    xs.foldl Buffer.put b =
      { b with mem := Block.write b.mem b.pos xs, pos := b.pos + xs.length } := by
  induction xs generalizing b with
  | nil => rfl
  | cons x xs ih =>
    rw [List.foldl_cons, ih, List.length_cons]
    simp only [Buffer.put, Block.write, Buffer.mk.injEq, true_and, and_true]
    omega

theorem getTo_of_ne {b : Buffer T} (h : b.pos ≠ b.lim) :
    b.getTo = (b.mem[b.pos]?, { b with pos := b.pos + 1 }) := if_neg h

/-- Where the limit is not among the places passed, the position moves over all of them. -/
theorem getDown_buf {b : Buffer T} (cells : List T) {n : Nat}
    (h : b.pos + n ≤ b.lim ∨ b.lim < b.pos) :
    (b.getDown cells n).2 = { b with pos := b.pos + n } := by
  induction n generalizing b cells with
  | zero => rfl
  | succ n ih =>
    rw [getDown, getTo_of_ne (by omega)]
    dsimp only
    rw [ih]
    · simp only [Buffer.mk.injEq, true_and, and_true]
      omega
    · dsimp only
      omega

/-- Items below the limit fill the array from its end. -/
theorem getDown_cells {b : Buffer T} (cells : List T) {n : Nat} (hl : b.lim ≤ b.capacity)
    (h : b.pos + n ≤ b.lim) (hn : n ≤ cells.length) :
    (b.getDown cells n).1 = (Block.read b.mem b.pos n).reverse ++ cells.drop n := by
  induction n generalizing b cells with
  | zero => rfl
  | succ n ih =>
    have hm : b.pos < b.mem.length := by
      unfold capacity at hl
      omega
    rw [getDown, getTo_of_ne (by omega), List.getElem?_eq_getElem hm]
    dsimp only
    rw [ih]
    · rw [Block.read_succ _ _ _ hm, List.reverse_cons, List.append_assoc, List.drop_set,
        if_neg (Nat.lt_irrefl n), Nat.sub_self, List.drop_eq_getElem_cons hn, List.set_cons_zero,
        List.singleton_append]
    · exact hl
    · dsimp only
      omega
    · rw [List.length_set]
      omega

/-- Every offset is a multiple of one. -/
theorem align_one (b : Buffer T) : b.align 1 = b := by
  rw [align_eq b (Nat.one_dvd _) (.inl (Nat.one_dvd _)), if_pos (Nat.one_dvd _)]

end Buffer

namespace BufCodec

/-- Puts the bytes of a word backwards, if as many are available. The state of the codec is not
asked and not changed; `src/data/BufCodec.cpp:12–18,25–33,40–46`. -/
def putSwap (c : BufCodec) (bs : List UInt8) : Nat × BufCodec :=
  if c.buf.available < bs.length then (0, c)
  else (bs.length, { c with buf := bs.reverse.foldl Buffer.put c.buf })

/-- Gets bytes backwards into a word that holds `old`, if as many are available;
`src/data/BufCodec.cpp:53–59,66–74,81–87`. -/
def getSwap (c : BufCodec) (old : List UInt8) : Nat × List UInt8 × BufCodec :=
  if c.buf.available < old.length then (0, old, c)
  else
    let r := c.buf.getDown old old.length
    (old.length, r.1, { c with buf := r.2 })

variable (e : Endian)

/-- `BinSwapEncoder::put_swap2`; `src/data/BufCodec.cpp:10–19`. -/
def putSwap2 (c : BufCodec) (v : UInt16) : Nat × BufCodec := c.putSwap (NativeRep.bytes e v)

/-- `BinSwapEncoder::put_swap4`; `src/data/BufCodec.cpp:23–34`. -/
def putSwap4 (c : BufCodec) (v : UInt32) : Nat × BufCodec := c.putSwap (NativeRep.bytes e v)

/-- `BinSwapEncoder::put_swap8`; `src/data/BufCodec.cpp:38–47`. -/
def putSwap8 (c : BufCodec) (v : UInt64) : Nat × BufCodec := c.putSwap (NativeRep.bytes e v)

/-- Gets a word backwards into a variable that holds `old`. -/
def getSwapped {α : Type} [NativeRep α] (c : BufCodec) (old : α) : Nat × α × BufCodec :=
  let r := c.getSwap (NativeRep.bytes e old)
  (r.1, NativeRep.value e r.2.1, r.2.2)

/-- `BinSwapDecoder::get_swap2`; `src/data/BufCodec.cpp:51–60`. -/
def getSwap2 (c : BufCodec) (old : UInt16) : Nat × UInt16 × BufCodec := c.getSwapped e old

/-- `BinSwapDecoder::get_swap4`; `src/data/BufCodec.cpp:64–75`. -/
def getSwap4 (c : BufCodec) (old : UInt32) : Nat × UInt32 × BufCodec := c.getSwapped e old

/-- `BinSwapDecoder::get_swap8`; `src/data/BufCodec.cpp:79–88`. -/
def getSwap8 (c : BufCodec) (old : UInt64) : Nat × UInt64 × BufCodec := c.getSwapped e old

/-- `BinSwapDecoder::get_bool`, whose byte holds `junk` until one is got;
`CtrlrFx/BufCodec.h:464–470`. -/
def getSwapBool (c : BufCodec) (junk : UInt8) : Nat × Bool × BufCodec :=
  let r := c.get e junk
  (r.1, r.2.1 != 0, r.2.2)

/-- Below the limit a word is written backwards where the position is. -/
theorem putSwap_of_le {c : BufCodec} {bs : List UInt8} (h : c.buf.pos + bs.length ≤ c.buf.lim) :
    c.putSwap bs = (bs.length, { c with buf := { c.buf with
      mem := Block.write c.buf.mem c.buf.pos bs.reverse
      pos := c.buf.pos + bs.length } }) := by
  have hn : ¬c.buf.available < bs.length := by
    rw [Buffer.available_lt_iff (by omega)]
    omega
  rw [putSwap, if_neg hn, Buffer.foldl_put, List.length_reverse]

/-- Below the limit a word takes the bytes that follow, backwards. -/
theorem getSwap_of_le {c : BufCodec} {old : List UInt8} (hl : c.buf.lim ≤ c.buf.capacity)
    (h : c.buf.pos + old.length ≤ c.buf.lim) :
    c.getSwap old = (old.length, (Block.read c.buf.mem c.buf.pos old.length).reverse,
      { c with buf := { c.buf with pos := c.buf.pos + old.length } }) := by
  have hn : ¬c.buf.available < old.length := by
    rw [Buffer.available_lt_iff (by omega)]
    omega
  have hcells := Buffer.getDown_cells old hl h (Nat.le_refl _)
  rw [List.drop_length, List.append_nil] at hcells
  rw [getSwap, if_neg hn]
  dsimp only
  rw [hcells, Buffer.getDown_buf old (.inl h)]

end BufCodec

namespace Scalar

/-- Puts a scalar with the overload of a swap encoder for its type;
`CtrlrFx/BufCodec.h:330–336`. -/
def putSwap (e : Endian) (c : BufCodec) : Scalar → Nat × BufCodec
  | u8 v => c.put e v
  | u16 v => c.putSwap2 e v
  | u32 v => c.putSwap4 e v
  | u64 v => c.putSwap8 e v
  | bool v => c.putBool e v

/-- Gets a scalar into a variable, with the overload of a swap decoder for its type;
`CtrlrFx/BufCodec.h:422–428`. -/
def getSwap (e : Endian) (junk : UInt8) (c : BufCodec) : Scalar → Nat × Scalar × BufCodec
  | u8 v => let r := c.get e v; (r.1, u8 r.2.1, r.2.2)
  | u16 v => let r := c.getSwap2 e v; (r.1, u16 r.2.1, r.2.2)
  | u32 v => let r := c.getSwap4 e v; (r.1, u32 r.2.1, r.2.2)
  | u64 v => let r := c.getSwap8 e v; (r.1, u64 r.2.1, r.2.2)
  | bool _ => let r := c.getSwapBool e junk; (r.1, bool r.2.1, r.2.2)

/-- Puts scalars in order. -/
def putSwapAll (e : Endian) (c : BufCodec) : List Scalar → BufCodec
  | [] => c
  | v :: vs => putSwapAll e (v.putSwap e c).2 vs

/-- Offsets at which these puts store their bytes. -/
def swapStarts (e : Endian) (c : BufCodec) : List Scalar → List Nat
  | [] => []
  | v :: vs => ((v.putSwap e c).2.buf.pos - v.size) :: swapStarts e (v.putSwap e c).2 vs

/-- Gets scalars in order into a list of variables, with the results. -/
def getSwapAll (e : Endian) (junk : UInt8) (c : BufCodec) :
    List Scalar → List Nat × List Scalar × BufCodec
  | [] => ([], [], c)
  | v :: vs =>
    let r := v.getSwap e junk c
    let rs := getSwapAll e junk r.2.2 vs
    (r.1 :: rs.1, r.2.1 :: rs.2.1, rs.2.2)

/-- The bytes of a scalar on the other host. -/
theorem bytes_flip (e : Endian) (v : Scalar) : v.bytes e.flip = (v.bytes e).reverse := by
  cases v with
  | u8 v => rfl
  | u16 v => exact e.encode_flip 2 v.toNat
  | u32 v => exact e.encode_flip 4 v.toNat
  | u64 v => exact e.encode_flip 8 v.toNat
  | bool v => rfl

end Scalar
end CtrlrFx.Data
