import CtrlrFx.Base.Block
import CtrlrFx.Base.Words

/-!
# Buffers

`CtrlrFx/Buffer.h`: a block of memory with a position, a limit and a mark. Data are written
from the start up to the limit; `flip` then turns what was written into what can be read.
-/

namespace CtrlrFx.Data
open Base

/-- Members of the buffer; `CtrlrFx/Buffer.h:18–25`. The block from `base_` to `end_` is
`mem`, and the other pointers are offsets into it. -/
structure Buffer (T : Type) where
  mem : List T
  pos : Nat
  lim : Nat
  mark : Nat
  own : Bool
  deriving DecidableEq, Repr

namespace Buffer

variable {T : Type}

/-- A buffer without memory; `CtrlrFx/Buffer.h:260–264`. -/
def empty : Buffer T := { mem := [], pos := 0, lim := 0, mark := 0, own := false }

/-- A buffer on newly allocated cells, whose contents are whatever `fresh` holds;
`CtrlrFx/Buffer.h:266–272,300–306`. -/
def alloc (fresh : List T) : Buffer T :=
  { mem := fresh, pos := 0, lim := fresh.length, mark := 0, own := true }

/-- A buffer on memory that it does not own; `CtrlrFx/Buffer.h:274–280`. -/
def fixed (cells : List T) : Buffer T :=
  { mem := cells, pos := 0, lim := cells.length, mark := 0, own := false }

/-- Replaces the memory; `CtrlrFx/Buffer.h:344–349`. -/
def resize (_ : Buffer T) (fresh : List T) : Buffer T := alloc fresh

/-- Number of cells; `CtrlrFx/Buffer.h:135`. -/
def capacity (b : Buffer T) : Nat := b.mem.length

/-- Offset of the limit; `CtrlrFx/Buffer.h:141`. -/
def size (b : Buffer T) : Nat := b.lim

/-- Moves the limit, unchecked; `CtrlrFx/Buffer.h:144`. -/
def setSize (b : Buffer T) (sz : Nat) : Buffer T := { b with lim := sz }

/-- Cells between position and limit, as the `size_t` it is computed in;
`CtrlrFx/Buffer.h:177`. -/
def available (b : Buffer T) : Nat := ptrDiff b.lim b.pos

/-- No cell is left, in write mode as in read mode; `CtrlrFx/Buffer.h:183–186`. -/
def full (b : Buffer T) : Bool := b.lim == b.pos

/-- Sets the mark to the position; `CtrlrFx/Buffer.h:207`. -/
def setMark (b : Buffer T) : Buffer T := { b with mark := b.pos }

/-- Sets the position to the mark; `CtrlrFx/Buffer.h:210`. -/
def reset (b : Buffer T) : Buffer T := { b with pos := b.mark }

/-- Position and mark back to the start; `CtrlrFx/Buffer.h:213`. -/
def rewind (b : Buffer T) : Buffer T := { b with pos := 0, mark := 0 }

/-- Empties the buffer for writing up to its capacity; `CtrlrFx/Buffer.h:387–392`. -/
def clear (b : Buffer T) : Buffer T := { b with pos := 0, mark := 0, lim := b.capacity }

/-- Empties the buffer for writing up to `sz` cells, or its capacity if that is less;
`CtrlrFx/Buffer.h:395–404`. -/
def clearTo (b : Buffer T) (sz : Nat) : Buffer T :=
  { b with pos := 0, mark := 0, lim := if sz > b.capacity then b.capacity else sz }

/-- From writing to reading; `CtrlrFx/Buffer.h:406–412`. -/
def flip (b : Buffer T) : Buffer T := { b with lim := b.pos, pos := 0, mark := 0 }

/-- Moves the items that are left to the start, one after another; the mark stays where it is.
`CtrlrFx/Buffer.h:414–426`. -/
def compact (b : Buffer T) : Buffer T :=
  { b with
    mem := Block.copyForwards b.mem 0 b.pos b.available, lim := b.lim - b.pos, pos := 0 }

/-- Stores one item in each cell that is left; `CtrlrFx/Buffer.h:379–385`. -/
def fill (b : Buffer T) (v : T) : Buffer T :=
  { b with
    mem := Block.write b.mem b.pos (List.replicate (b.lim - b.pos) v)
    pos := b.pos + (b.lim - b.pos) }

/-- Moves the position up to a multiple of `n`, if that lies inside the memory. The position
is narrowed to an `int` for the remainder, which is then subtracted from a pointer;
`CtrlrFx/Buffer.h:428–438`. -/
def align (b : Buffer T) (n : Nat) : Buffer T :=
  let rem := (toInt32 b.pos).tmod n
  if rem ≠ 0 then
    let p := b.pos + ((n : Int) - rem).toNat
    if p < b.capacity then { b with pos := p } else b
  else b

/-- Stores one item, unchecked; `CtrlrFx/Buffer.h:240`. -/
def put (b : Buffer T) (v : T) : Buffer T :=
  { b with mem := b.mem.set b.pos v, pos := b.pos + 1 }

/-- Copies a whole array in, or nothing, with the count; `CtrlrFx/Buffer.h:443–451`. -/
def putBlock (b : Buffer T) (xs : List T) : Nat × Buffer T :=
  if b.pos + xs.length > b.lim then (0, b)
  else (xs.length, { b with mem := Block.write b.mem b.pos xs, pos := b.pos + xs.length })

/-- Takes the next item, unchecked; `CtrlrFx/Buffer.h:247`. A read outside the memory has
no value. -/
def get (b : Buffer T) : Option (T × Buffer T) :=
  b.mem[b.pos]?.map fun v ↦ (v, { b with pos := b.pos + 1 })

/-- Takes the next item, unless position and limit are the same; `CtrlrFx/Buffer.h:453–461`. An
item outside the memory has no value. -/
def getTo (b : Buffer T) : Option T × Buffer T :=
  if b.pos = b.lim then (none, b) else (b.mem[b.pos]?, { b with pos := b.pos + 1 })

/-- Copies `n` items out, or none, with the count; `CtrlrFx/Buffer.h:464–472`. -/
def getBlock (b : Buffer T) (n : Nat) : Nat × List T × Buffer T :=
  if b.pos + n > b.lim then (0, [], b)
  else (n, Block.read b.mem b.pos n, { b with pos := b.pos + n })

/-- Position, limit and capacity are in order. -/
structure Valid (b : Buffer T) : Prop where
  pos_le : b.pos ≤ b.lim
  lim_le : b.lim ≤ b.capacity

/-- Items written since the buffer was cleared, in write mode. -/
def written (b : Buffer T) : List T := b.mem.take b.pos

/-- Items still to be read, in read mode. -/
def unread (b : Buffer T) : List T := Block.read b.mem b.pos (b.lim - b.pos)

theorem available_of_le {b : Buffer T} (h : b.pos ≤ b.lim) : b.available = b.lim - b.pos :=
  ptrDiff_of_le h

theorem full_iff {b : Buffer T} : b.full = true ↔ b.lim = b.pos := beq_iff_eq

@[simp] theorem capacity_alloc (fresh : List T) : (alloc fresh).capacity = fresh.length := rfl

@[simp] theorem capacity_clear (b : Buffer T) : b.clear.capacity = b.capacity := rfl

@[simp] theorem capacity_clearTo (b : Buffer T) (sz : Nat) :
    (b.clearTo sz).capacity = b.capacity := rfl

@[simp] theorem capacity_flip (b : Buffer T) : b.flip.capacity = b.capacity := rfl

/-- Alignment moves the position inside the memory, or does nothing. -/
theorem align_cases (b : Buffer T) (n : Nat) :
    b.align n = b ∨ ∃ p, p < b.capacity ∧ b.align n = { b with pos := p } := by
  unfold align
  by_cases hr : (toInt32 b.pos).tmod n ≠ 0
  · rw [if_pos hr]
    by_cases hp : b.pos + ((n : Int) - (toInt32 b.pos).tmod n).toNat < b.capacity
    · right
      exact ⟨_, hp, if_pos hp⟩
    · left
      exact if_neg hp
  · left
    exact if_neg hr

/-- Alignment never moves back. -/
theorem le_pos_align (b : Buffer T) (n : Nat) : b.pos ≤ (b.align n).pos := by
  have hmove : ∃ p, b.pos ≤ p ∧ b.align n = { b with pos := p } := by
    unfold align
    by_cases hr : (toInt32 b.pos).tmod n ≠ 0
    · rw [if_pos hr]
      by_cases hp : b.pos + ((n : Int) - (toInt32 b.pos).tmod n).toNat < b.capacity
      · exact ⟨_, Nat.le_add_right _ _, if_pos hp⟩
      · exact ⟨b.pos, Nat.le_refl _, if_neg hp⟩
    · exact ⟨b.pos, Nat.le_refl _, if_neg hr⟩
  obtain ⟨p, hp, he⟩ := hmove
  rw [he]
  exact hp

/-- Only the position can move. -/
theorem align_eq_self_of_pos {b : Buffer T} {n : Nat} (h : (b.align n).pos = b.pos) :
    b.align n = b := by
  rcases b.align_cases n with ha | ⟨p, -, ha⟩
  · exact ha
  · rw [ha] at h ⊢
    dsimp only at h
    rw [h]

@[simp] theorem mem_align (b : Buffer T) (n : Nat) : (b.align n).mem = b.mem := by
  rcases b.align_cases n with h | ⟨p, -, h⟩ <;> rw [h]

@[simp] theorem lim_align (b : Buffer T) (n : Nat) : (b.align n).lim = b.lim := by
  rcases b.align_cases n with h | ⟨p, -, h⟩ <;> rw [h]

@[simp] theorem capacity_align (b : Buffer T) (n : Nat) : (b.align n).capacity = b.capacity := by
  rw [capacity, mem_align, capacity]

@[simp] theorem mem_getBlock (b : Buffer T) (n : Nat) : (b.getBlock n).2.2.mem = b.mem := by
  unfold getBlock
  split <;> rfl

@[simp] theorem capacity_getBlock (b : Buffer T) (n : Nat) :
    (b.getBlock n).2.2.capacity = b.capacity := by
  rw [capacity, mem_getBlock, capacity]

@[simp] theorem lim_getBlock (b : Buffer T) (n : Nat) : (b.getBlock n).2.2.lim = b.lim := by
  unfold getBlock
  split <;> rfl

@[simp] theorem capacity_put (b : Buffer T) (v : T) : (b.put v).capacity = b.capacity :=
  List.length_set

@[simp] theorem capacity_putBlock (b : Buffer T) (xs : List T) :
    (b.putBlock xs).2.capacity = b.capacity := by
  unfold putBlock
  split
  · rfl
  · exact Block.length_write _ _ _

theorem valid_alloc (fresh : List T) : (alloc fresh).Valid := ⟨Nat.zero_le _, Nat.le_refl _⟩

theorem valid_fixed (cells : List T) : (fixed cells).Valid := ⟨Nat.zero_le _, Nat.le_refl _⟩

theorem valid_clear (b : Buffer T) : b.clear.Valid := ⟨Nat.zero_le _, Nat.le_refl _⟩

theorem lim_clearTo (b : Buffer T) (sz : Nat) : (b.clearTo sz).lim = min sz b.capacity := by
  simp only [clearTo]
  split <;> omega

theorem Valid.flip {b : Buffer T} (h : b.Valid) : b.flip.Valid :=
  ⟨Nat.zero_le _, Nat.le_trans h.pos_le h.lim_le⟩

theorem Valid.pos_lt {b : Buffer T} (h : b.Valid) (hf : b.full = false) : b.pos < b.lim := by
  have hn : b.lim ≠ b.pos := fun he ↦ by simp [full_iff.mpr he] at hf
  have hp := h.pos_le
  omega

theorem Valid.put {b : Buffer T} (h : b.Valid) (v : T) (hf : b.full = false) :
    (b.put v).Valid :=
  ⟨h.pos_lt hf, by rw [capacity_put]; exact h.lim_le⟩

theorem Valid.length_written {b : Buffer T} (h : b.Valid) : b.written.length = b.pos := by
  have hl : b.pos ≤ b.mem.length := Nat.le_trans h.pos_le h.lim_le
  rw [written, List.length_take, Nat.min_eq_left hl]

theorem Valid.length_unread {b : Buffer T} (h : b.Valid) : b.unread.length = b.lim - b.pos := by
  have hl : b.lim ≤ b.mem.length := h.lim_le
  have hp := h.pos_le
  exact Block.length_read _ _ _ (by omega)

/-- What is written becomes what is unread. -/
theorem unread_flip (b : Buffer T) : b.flip.unread = b.written := rfl

@[simp] theorem written_clear (b : Buffer T) : b.clear.written = [] := List.take_zero

/-- A single put below the limit appends to what is written. -/
theorem written_put {b : Buffer T} (h : b.Valid) (v : T) (hf : b.full = false) :
    (b.put v).written = b.written ++ [v] := by
  have hp := h.pos_lt hf
  have hl := h.lim_le
  simp only [capacity] at hl
  exact Block.take_write_end b.mem b.pos [v] (by simp only [List.length_singleton]; omega)

theorem unread_of_full {b : Buffer T} (hf : b.full = true) : b.unread = [] := by
  rw [unread, full_iff.mp hf, Nat.sub_self, Block.read_zero]

/-- Past some items, the rest is still to be read. -/
theorem unread_skip {b : Buffer T} {n : Nat} (hn : n ≤ b.lim - b.pos) :
    b.unread.take n ++ ({ b with pos := b.pos + n } : Buffer T).unread = b.unread := by
  have hsum : b.lim - b.pos = n + (b.lim - (b.pos + n)) := by omega
  change b.unread.take n ++ Block.read b.mem (b.pos + n) (b.lim - (b.pos + n)) = b.unread
  rw [unread, Block.take_read _ _ hn, ← Block.read_add, ← hsum]

/-- A single get takes the first unread item. -/
theorem get_spec {b : Buffer T} (h : b.Valid) (hf : b.full = false) :
    ∃ v b', b.get = some (v, b') ∧ b.unread = v :: b'.unread ∧ b'.Valid ∧
      b'.capacity = b.capacity := by
  have hp := h.pos_lt hf
  have hm : b.pos < b.mem.length := Nat.lt_of_lt_of_le hp h.lim_le
  refine ⟨b.mem[b.pos], { b with pos := b.pos + 1 }, ?_, ?_, ⟨hp, h.lim_le⟩, rfl⟩
  · rw [get, List.getElem?_eq_getElem hm, Option.map_some]
  · have hs : b.lim - b.pos = b.lim - (b.pos + 1) + 1 := by omega
    rw [unread, hs, Block.read_succ _ _ _ hm]
    rfl

/-- What a get hands back was the first of what was unread. -/
theorem unread_getTo {b : Buffer T} (h : b.Valid) :
    b.unread = b.getTo.1.toList ++ b.getTo.2.unread := by
  by_cases he : b.pos = b.lim
  · rw [getTo, if_pos he]
    rfl
  · have hp := h.pos_le
    have hm : b.pos < b.mem.length := Nat.lt_of_lt_of_le (by omega) h.lim_le
    have hs : b.lim - b.pos = b.lim - (b.pos + 1) + 1 := by omega
    rw [getTo, if_neg he, List.getElem?_eq_getElem hm, unread, hs, Block.read_succ _ _ _ hm]
    rfl

/-- A block put is decided by the room below the limit. -/
theorem putBlock_of_le {b : Buffer T} {xs : List T} (h : b.pos + xs.length ≤ b.lim) :
    b.putBlock xs =
      (xs.length, { b with mem := Block.write b.mem b.pos xs, pos := b.pos + xs.length }) :=
  if_neg (Nat.not_lt.mpr h)

theorem putBlock_of_lt {b : Buffer T} {xs : List T} (h : b.lim < b.pos + xs.length) :
    b.putBlock xs = (0, b) := if_pos h

/-- A block get is decided by the items up to the limit. -/
theorem getBlock_of_le {b : Buffer T} {n : Nat} (h : b.pos + n ≤ b.lim) :
    b.getBlock n = (n, Block.read b.mem b.pos n, { b with pos := b.pos + n }) :=
  if_neg (Nat.not_lt.mpr h)

theorem getBlock_of_lt {b : Buffer T} {n : Nat} (h : b.lim < b.pos + n) :
    b.getBlock n = (0, [], b) := if_pos h

/-- A block that is got was at the front of what was unread. -/
theorem unread_getBlock (b : Buffer T) (n : Nat) :
    b.unread = (b.getBlock n).2.1 ++ (b.getBlock n).2.2.unread := by
  by_cases hn : b.pos + n ≤ b.lim
  · have hskip := unread_skip (b := b) (n := n) (by omega)
    rw [unread, Block.take_read _ _ (by omega)] at hskip
    rw [getBlock_of_le hn, unread, ← hskip]
  · rw [getBlock_of_lt (Nat.lt_of_not_le hn), List.nil_append]

/-- A block that fits is appended to what is written. -/
theorem written_putBlock {b : Buffer T} {xs : List T} (h : b.Valid)
    (hx : b.pos + xs.length ≤ b.lim) : (b.putBlock xs).2.written = b.written ++ xs := by
  rw [putBlock_of_le hx]
  exact Block.take_write_end b.mem b.pos xs (Nat.le_trans hx h.lim_le)

/-- What is left is written to the start. -/
theorem mem_compact {b : Buffer T} (h : b.Valid) :
    b.compact.mem = Block.write b.mem 0 b.unread := by
  have hp := h.pos_le
  have hl : b.lim ≤ b.mem.length := h.lim_le
  rw [compact, available_of_le hp, unread]
  exact Block.copyForwards_eq _ (Nat.zero_le _) (by omega)

theorem capacity_compact {b : Buffer T} (h : b.Valid) : b.compact.capacity = b.capacity := by
  rw [capacity, mem_compact h]
  exact Block.length_write _ _ _

/-- The items left are the same when they have been moved to the start. -/
theorem unread_compact {b : Buffer T} (h : b.Valid) : b.compact.unread = b.unread := by
  have hl : b.lim ≤ b.mem.length := h.lim_le
  have hlen := h.length_unread
  have hread := Block.read_write b.mem 0 b.unread (by omega)
  rw [hlen] at hread
  rw [unread, mem_compact h]
  exact hread

/-! ### Writing up to the end -/

/-- A buffer in write mode whose limit is its end, so that no step of an encoder goes past it. -/
structure Writable (b : Buffer T) : Prop where
  pos_le : b.pos ≤ b.lim
  lim_eq : b.lim = b.capacity

theorem Writable.valid {b : Buffer T} (h : b.Writable) : b.Valid :=
  ⟨h.pos_le, Nat.le_of_eq h.lim_eq⟩

theorem writable_clear (b : Buffer T) : b.clear.Writable := ⟨Nat.zero_le _, rfl⟩

theorem Writable.align {b : Buffer T} (h : b.Writable) (n : Nat) : (b.align n).Writable := by
  rcases b.align_cases n with ha | ⟨p, hp, ha⟩
  · rwa [ha]
  · rw [ha]
    refine ⟨?_, h.lim_eq⟩
    change p ≤ b.lim
    rw [h.lim_eq]
    exact Nat.le_of_lt hp

theorem Writable.putBlock {b : Buffer T} (h : b.Writable) (xs : List T) :
    (b.putBlock xs).2.Writable := by
  by_cases hle : b.pos + xs.length ≤ b.lim
  · have hcap := capacity_putBlock b xs
    rw [putBlock_of_le hle] at hcap ⊢
    exact ⟨hle, h.lim_eq.trans hcap.symm⟩
  · rwa [putBlock_of_lt (Nat.lt_of_not_le hle)]

end Buffer
end CtrlrFx.Data
