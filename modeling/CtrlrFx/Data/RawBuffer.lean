import CtrlrFx.Base.Machine
import CtrlrFx.Base.Pointer
import CtrlrFx.Data.Buffer

/-!
# Buffers as they are laid out

`CtrlrFx/Buffer.h` again, now with the five pointers that the class keeps: addresses of 64 bits,
which wrap, and 0 for the null pointer. Items are read and written at addresses of the memory
around the buffer, and `stray` is set by an access at an index that is not below `size()`. As long
as the pointers are in order this is `Data.Buffer`, which keeps the block alone.
-/

namespace CtrlrFx.Data
open Base

/-- Members of the buffer, `CtrlrFx/Buffer.h:18–25`, with the memory they point into. -/
structure RawBuffer (T : Type) where
  base : Nat
  pos : Nat
  lim : Nat
  stop : Nat
  mark : Nat
  own : Bool
  mem : Nat → T
  stray : Bool

namespace RawBuffer

variable {T : Type} [Item T]

/-! ### Constructors -/

/-- `CtrlrFx/Buffer.h:260–264`. -/
def null (mem : Nat → T) : RawBuffer T :=
  { base := 0, pos := 0, lim := 0, stop := 0, mark := 0, own := false, mem, stray := false }

/-- A buffer on `cap` items at `arr` that holds `sz` items already; `CtrlrFx/Buffer.h:282–289`. -/
def assigned (mem : Nat → T) (arr sz cap : Nat) (own : Bool) : RawBuffer T :=
  { base := arr, pos := Pointer.add T arr sz, lim := Pointer.add T arr cap,
    stop := Pointer.add T arr cap, mark := Pointer.add T arr sz, own, mem, stray := false }

/-- A buffer on `cap` items at `arr`; `CtrlrFx/Buffer.h:274–280`. -/
def fixed (mem : Nat → T) (arr cap : Nat) (own : Bool) : RawBuffer T :=
  { base := arr, pos := arr, lim := Pointer.add T arr cap, stop := Pointer.add T arr cap,
    mark := arr, own, mem, stray := false }

/-- A buffer on `cap` new items, which the system has put at `arr`;
`CtrlrFx/Buffer.h:266–272,300–306`. -/
def alloc (mem : Nat → T) (arr cap : Nat) : RawBuffer T := fixed mem arr cap true

/-! ### Queries -/

/-- `CtrlrFx/Buffer.h:135`. -/
def capacity (b : RawBuffer T) : Nat := Pointer.diff T b.stop b.base

/-- `CtrlrFx/Buffer.h:141`. -/
def size (b : RawBuffer T) : Nat := Pointer.diff T b.lim b.base

/-- `CtrlrFx/Buffer.h:150`. -/
def position (b : RawBuffer T) : Nat := Pointer.diff T b.pos b.base

/-- `CtrlrFx/Buffer.h:173`. -/
def getMark (b : RawBuffer T) : Nat := Pointer.diff T b.mark b.base

/-- `CtrlrFx/Buffer.h:177`. -/
def available (b : RawBuffer T) : Nat := Pointer.diff T b.lim b.pos

/-- `CtrlrFx/Buffer.h:180`. -/
def hasAvailable (b : RawBuffer T) : Bool := b.lim != b.pos

/-- `CtrlrFx/Buffer.h:183`. -/
def full (b : RawBuffer T) : Bool := b.lim == b.pos

/-! ### Items -/

/-- Notes an access to the item at `a`. -/
def touch (b : RawBuffer T) (a : Nat) : RawBuffer T :=
  if b.base ≤ a ∧ (a - b.base) / Item.size T < b.size then b else { b with stray := true }

/-- `*p = v`. -/
def store (b : RawBuffer T) (a : Nat) (v : T) : RawBuffer T :=
  { b.touch a with mem := Function.update b.mem a v }

/-- `*p`. -/
def load (b : RawBuffer T) (a : Nat) : T × RawBuffer T := (b.mem a, b.touch a)

/-- `copy_elem` into the buffer; `CtrlrFx/Buffer.h:333–338`. -/
def copyIn (b : RawBuffer T) (a : Nat) : List T → RawBuffer T
  | [] => b
  | x :: xs => (b.store a x).copyIn (Pointer.add T a 1) xs

/-- `copy_elem` out of the buffer; `CtrlrFx/Buffer.h:333–338`. -/
def copyOut (b : RawBuffer T) (a : Nat) : Nat → List T × RawBuffer T
  | 0 => ([], b)
  | n + 1 =>
    let r := (b.load a).2.copyOut (Pointer.add T a 1) n
    ((b.load a).1 :: r.1, r.2)

/-- The loop of `compact`, which copies `n` items from `src` down to `dst`;
`CtrlrFx/Buffer.h:419–420`. -/
def copyDown (b : RawBuffer T) (dst src : Nat) : Nat → RawBuffer T
  | 0 => b
  | n + 1 =>
    ((b.load src).2.store dst (b.load src).1).copyDown (Pointer.add T dst 1)
      (Pointer.add T src 1) n

/-- The loop of `fill`, with a bound on its rounds; `CtrlrFx/Buffer.h:382–383`. -/
def fillLoop (v : T) : Nat → RawBuffer T → RawBuffer T
  | 0, b => b
  | n + 1, b =>
    if b.pos < b.lim then fillLoop v n { b.store b.pos v with pos := Pointer.add T b.pos 1 } else b

/-! ### Methods -/

/-- The copy constructor, on new memory at `arr`; it copies nothing if that is too small for the
items. It leaves the other buffer as it is, but for the accesses;
`CtrlrFx/Buffer.h:291–296,318–331`. -/
def copy (rhs : RawBuffer T) (mem : Nat → T) (arr : Nat) : RawBuffer T × RawBuffer T :=
  let b := alloc mem arr rhs.capacity
  if rhs.size > b.capacity then (rhs, b)
  else
    let r := rhs.copyOut rhs.base rhs.size
    (r.2, { b with
      pos := Pointer.add T b.base rhs.position
      mark := Pointer.add T b.base rhs.getMark
      lim := Pointer.add T b.base rhs.size }.copyIn b.base r.1)

/-- `CtrlrFx/Buffer.h:308–316`. -/
def dealloc (b : RawBuffer T) : RawBuffer T :=
  if b.own then { b with base := 0, own := false } else b

/-- `CtrlrFx/Buffer.h:361–366`. -/
def destroy (b : RawBuffer T) : RawBuffer T :=
  { b.dealloc with lim := 0, stop := 0, pos := 0, mark := 0 }

/-- Each round of the loop takes the position on by a byte at least; `CtrlrFx/Buffer.h:379–385`. -/
def fill (b : RawBuffer T) (v : T) : RawBuffer T := fillLoop v (b.lim - b.pos) b

/-- `mark()`; `CtrlrFx/Buffer.h:207`. -/
def setMark (b : RawBuffer T) : RawBuffer T := { b with mark := b.pos }

/-- `CtrlrFx/Buffer.h:210`. -/
def reset (b : RawBuffer T) : RawBuffer T := { b with pos := b.mark }

/-- `CtrlrFx/Buffer.h:213`. -/
def rewind (b : RawBuffer T) : RawBuffer T := { b with pos := b.base, mark := b.base }

/-- `CtrlrFx/Buffer.h:387–393`. -/
def clear (b : RawBuffer T) : RawBuffer T :=
  { b with pos := b.base, mark := b.base, lim := b.stop }

/-- `CtrlrFx/Buffer.h:395–404`. -/
def clearTo (b : RawBuffer T) (sz : Nat) : RawBuffer T :=
  { b with
    pos := b.base
    mark := b.base
    lim := Pointer.add T b.base (if sz > b.capacity then b.capacity else sz) }

/-- `CtrlrFx/Buffer.h:406–412`. -/
def flip (b : RawBuffer T) : RawBuffer T :=
  { b with lim := b.pos, pos := b.base, mark := b.base }

/-- `CtrlrFx/Buffer.h:414–426`. -/
def compact (b : RawBuffer T) : RawBuffer T :=
  let b' := b.copyDown b.base b.pos b.available
  { b' with lim := Pointer.back T b.lim b.position, pos := b.base }

/-- `n - rem`, the distance of position `p` from the next multiple of `n`;
`CtrlrFx/Buffer.h:431,434`. -/
def gap (p n : Nat) : Int := n - (toInt32 p).tmod n

/-- The pointer that `align` computes; `CtrlrFx/Buffer.h:434`. -/
def alignTo (b : RawBuffer T) (n : Nat) : Nat :=
  Pointer.move T b.pos (toInt32 (gap b.position n))

/-- `CtrlrFx/Buffer.h:428–439`. -/
def align (b : RawBuffer T) (n : Nat) : RawBuffer T :=
  if (toInt32 b.position).tmod n ≠ 0 then
    if b.alignTo n < b.stop then { b with pos := b.alignTo n } else b
  else b

/-- `CtrlrFx/Buffer.h:240`. -/
def put (b : RawBuffer T) (v : T) : RawBuffer T :=
  { b.store b.pos v with pos := Pointer.add T b.pos 1 }

/-- `CtrlrFx/Buffer.h:443–452`. -/
def putBlock (b : RawBuffer T) (xs : List T) : Nat × RawBuffer T :=
  if Pointer.add T b.pos xs.length > b.lim then (0, b)
  else (xs.length, { b.copyIn b.pos xs with pos := Pointer.add T b.pos xs.length })

/-- `CtrlrFx/Buffer.h:247`. -/
def get (b : RawBuffer T) : T × RawBuffer T :=
  ((b.load b.pos).1, { (b.load b.pos).2 with pos := Pointer.add T b.pos 1 })

/-- `get(T* p)`, with the item if there is one; `CtrlrFx/Buffer.h:454–462`. -/
def getTo (b : RawBuffer T) : Option T × RawBuffer T :=
  if b.pos = b.lim then (none, b) else (some b.get.1, b.get.2)

/-- `CtrlrFx/Buffer.h:464–473`. -/
def getBlock (b : RawBuffer T) (n : Nat) : Nat × List T × RawBuffer T :=
  if Pointer.add T b.pos n > b.lim then (0, [], b)
  else
    (n, (b.copyOut b.pos n).1, { (b.copyOut b.pos n).2 with pos := Pointer.add T b.pos n })

/-- `pos_ + n` does not wrap around to a place up to the limit. -/
def NoWrap (b : RawBuffer T) (n : Nat) : Prop :=
  n ≤ b.available ∨ b.lim < Pointer.add T b.pos n

@[simp] theorem base_touch (b : RawBuffer T) (a : Nat) : (b.touch a).base = b.base := by
  unfold touch
  split <;> rfl

@[simp] theorem base_copyIn (b : RawBuffer T) (a : Nat) (xs : List T) :
    (b.copyIn a xs).base = b.base := by
  induction xs generalizing b a with
  | nil => rfl
  | cons x xs ih => rw [copyIn, ih, store, base_touch]

@[simp] theorem base_copyDown (b : RawBuffer T) (dst src n : Nat) :
    (b.copyDown dst src n).base = b.base := by
  induction n generalizing b dst src with
  | zero => rfl
  | succ n ih => rw [copyDown, ih, store, base_touch, load, base_touch]

theorem gap_pos (p : Nat) {n : Nat} (hn : 1 ≤ n) : 0 < gap p n := by
  have hlt := Int.tmod_lt_of_pos (toInt32 p) (Int.natCast_pos.mpr hn)
  rw [gap]
  omega

theorem align_gap {S : Type} (v : Buffer S) (n : Nat) :
    v.align n = if (toInt32 v.pos).tmod n ≠ 0 then
      if v.pos + (gap v.pos n).toNat < v.capacity then
        { v with pos := v.pos + (gap v.pos n).toNat }
      else v
    else v := rfl

/-! ### Pointers in order -/

/-- The pointers are at items of one array, in order, all accesses so far were below the size, and
the array holds what the block does. -/
structure Lays (b : RawBuffer T) (v : Buffer T) : Prop where
  pos_eq : b.pos = Pointer.item T b.base v.pos
  lim_eq : b.lim = Pointer.item T b.base v.lim
  stop_eq : b.stop = Pointer.item T b.base v.capacity
  mark_eq : b.mark = Pointer.item T b.base v.mark
  own_eq : b.own = v.own
  cell : ∀ i (h : i < v.mem.length), v.mem[i] = b.mem (Pointer.item T b.base i)
  valid : v.Valid
  mark_le : v.mark ≤ v.lim
  stop_lt : b.stop < 2 ^ 64
  not_stray : b.stray = false

namespace Lays

variable {b : RawBuffer T} {v : Buffer T} {i n : Nat}

/-- All places up to the end of the array have addresses. -/
theorem item_lt (h : Lays b v) (hi : i ≤ v.capacity) : Pointer.item T b.base i < 2 ^ 64 := by
  have hle : Pointer.item T b.base i ≤ b.stop := by
    rw [h.stop_eq]
    exact Pointer.item_le_item.mpr hi
  exact Nat.lt_of_le_of_lt hle h.stop_lt

theorem lim_lt (h : Lays b v) (hi : i ≤ v.lim) : Pointer.item T b.base i < 2 ^ 64 :=
  h.item_lt (Nat.le_trans hi h.valid.lim_le)

/-- What the queries say while the pointers are in order. -/
theorem capacity_eq (h : Lays b v) : b.capacity = v.capacity := by
  rw [capacity, h.stop_eq]
  exact Pointer.diff_base (h.item_lt (Nat.le_refl _))

theorem size_eq (h : Lays b v) : b.size = v.lim := by
  rw [size, h.lim_eq]
  exact Pointer.diff_base (h.lim_lt (Nat.le_refl _))

theorem position_eq (h : Lays b v) : b.position = v.pos := by
  rw [position, h.pos_eq]
  exact Pointer.diff_base (h.lim_lt h.valid.pos_le)

theorem getMark_eq (h : Lays b v) : b.getMark = v.mark := by
  rw [getMark, h.mark_eq]
  exact Pointer.diff_base (h.lim_lt h.mark_le)

theorem available_eq (h : Lays b v) : b.available = v.lim - v.pos := by
  rw [available, h.lim_eq, h.pos_eq]
  exact Pointer.diff_item h.valid.pos_le (h.lim_lt (Nat.le_refl _))

theorem pos_lt_lim (h : Lays b v) : b.pos < b.lim ↔ v.pos < v.lim := by
  rw [h.pos_eq, h.lim_eq, Pointer.item_lt_item]

theorem pos_eq_lim (h : Lays b v) : b.pos = b.lim ↔ v.pos = v.lim := by
  rw [h.pos_eq, h.lim_eq, Pointer.item_inj]

theorem hasAvailable_iff (h : Lays b v) : b.hasAvailable = true ↔ v.pos < v.lim := by
  have hp := h.valid.pos_le
  rw [hasAvailable, bne_iff_ne, ne_comm, Ne, h.pos_eq_lim]
  omega

/-- The place `n` items on, if it is one of the array. -/
theorem add_eq (h : Lays b v) (hn : i + n ≤ v.capacity) :
    Pointer.add T (Pointer.item T b.base i) n = Pointer.item T b.base (i + n) :=
  Pointer.add_item (h.item_lt hn)

theorem add_base (h : Lays b v) (hn : n ≤ v.capacity) :
    Pointer.add T b.base n = Pointer.item T b.base n := by
  have ha := h.add_eq (i := 0) (n := n) (by rwa [Nat.zero_add])
  rwa [Pointer.item_zero, Nat.zero_add] at ha

/-- What fits ends at the limit or before. -/
theorem add_pos (h : Lays b v) (hn : v.pos + n ≤ v.lim) :
    Pointer.add T b.pos n = Pointer.item T b.base (v.pos + n) := by
  rw [h.pos_eq]
  exact h.add_eq (Nat.le_trans hn h.valid.lim_le)

theorem not_add_gt (h : Lays b v) (hn : v.pos + n ≤ v.lim) : ¬Pointer.add T b.pos n > b.lim := by
  rw [h.add_pos hn, h.lim_eq, gt_iff_lt, Pointer.item_lt_item]
  omega

/-! What is read and written below the limit leaves no note. -/

theorem touch_eq (h : Lays b v) (hi : i < v.lim) : b.touch (Pointer.item T b.base i) = b := by
  apply if_pos
  refine ⟨Pointer.le_item _ _, ?_⟩
  rw [h.size_eq, Pointer.item, Nat.add_sub_cancel_left, Nat.mul_div_cancel _ Item.size_pos]
  exact hi

theorem store_eq (h : Lays b v) (hi : i < v.lim) (x : T) :
    b.store (Pointer.item T b.base i) x =
      { b with mem := Function.update b.mem (Pointer.item T b.base i) x } := by
  rw [store, h.touch_eq hi]

/-- An item of the array is one of the block. -/
theorem withItem (h : Lays b v) (i : Nat) (x : T) :
    Lays { b with mem := Function.update b.mem (Pointer.item T b.base i) x }
      { v with mem := v.mem.set i x } := by
  have hcap : ({ v with mem := v.mem.set i x } : Buffer T).capacity = v.capacity :=
    List.length_set
  refine ⟨h.pos_eq, h.lim_eq, ?_, h.mark_eq, h.own_eq, ?_, ?_, h.mark_le, h.stop_lt, h.not_stray⟩
  · rw [hcap]
    exact h.stop_eq
  · intro j hj
    have hj' : j < v.mem.length := by rwa [List.length_set] at hj
    change (v.mem.set i x)[j] =
      Function.update b.mem (Pointer.item T b.base i) x (Pointer.item T b.base j)
    rw [List.getElem_set]
    by_cases he : i = j
    · rw [if_pos he, he, Function.update_self]
    · rw [if_neg he, h.cell j hj', Function.update_of_ne]
      exact fun ha ↦ he (Pointer.item_inj.mp ha).symm
  · refine ⟨h.valid.pos_le, ?_⟩
    rw [hcap]
    exact h.valid.lim_le

/-- The item that is read is that of the block. -/
theorem load_eq (h : Lays b v) (hi : i < v.lim) :
    ∃ hm : i < v.mem.length, b.load (Pointer.item T b.base i) = (v.mem[i], b) := by
  have hm : i < v.mem.length := Nat.lt_of_lt_of_le hi h.valid.lim_le
  exact ⟨hm, by rw [load, h.touch_eq hi, h.cell i hm]⟩

/-! ### Loops -/

theorem copyIn (h : Lays b v) (xs : List T) (hi : i + xs.length ≤ v.lim) :
    Lays (b.copyIn (Pointer.item T b.base i) xs) { v with mem := Block.write v.mem i xs } := by
  have hl := h.valid.lim_le
  induction xs generalizing b v i with
  | nil => exact h
  | cons x xs ih =>
    rw [List.length_cons] at hi
    have hx := h.withItem i x
    rw [RawBuffer.copyIn, h.store_eq (by omega), h.add_eq (by omega)]
    exact ih hx (by change i + 1 + xs.length ≤ v.lim; omega) hx.valid.lim_le

theorem copyOut_eq (h : Lays b v) (hi : i + n ≤ v.lim) :
    b.copyOut (Pointer.item T b.base i) n = (Block.read v.mem i n, b) := by
  have hl := h.valid.lim_le
  induction n generalizing i with
  | zero => rw [Block.read_zero, copyOut]
  | succ n ih =>
    rcases h.load_eq (i := i) (by omega) with ⟨hm, hload⟩
    rw [copyOut, hload, h.add_eq (by omega), ih (by omega), Block.read_succ _ _ _ hm]

theorem copyDown {d s : Nat} (h : Lays b v) (hd : d ≤ s) (hs : s + n ≤ v.lim) :
    Lays (b.copyDown (Pointer.item T b.base d) (Pointer.item T b.base s) n)
      { v with mem := Block.copyForwards v.mem d s n } := by
  have hl := h.valid.lim_le
  induction n generalizing b v d s with
  | zero => exact h
  | succ n ih =>
    rcases h.load_eq (i := s) (by omega) with ⟨hm, hload⟩
    have hx := h.withItem d v.mem[s]
    rw [RawBuffer.copyDown, hload, h.store_eq (by omega), h.add_eq (by omega),
      h.add_eq (by omega), Block.copyForwards, List.getElem?_eq_getElem hm]
    exact ih hx (Nat.succ_le_succ hd) (by change s + 1 + n ≤ v.lim; omega) hx.valid.lim_le

/-- The position has moved on. -/
theorem withPos {p : Nat} (h : Lays b v) (hp : p ≤ v.lim) :
    Lays { b with pos := Pointer.item T b.base p } { v with pos := p } :=
  ⟨rfl, h.lim_eq, h.stop_eq, h.mark_eq, h.own_eq, h.cell, ⟨hp, h.valid.lim_le⟩, h.mark_le,
    h.stop_lt, h.not_stray⟩

theorem put (h : Lays b v) (x : T) (hlt : v.pos < v.lim) : Lays (b.put x) (v.put x) := by
  have hnext := h.add_pos (n := 1) hlt
  rw [RawBuffer.put, hnext, h.pos_eq, h.store_eq hlt]
  exact (h.withItem v.pos x).withPos (p := v.pos + 1) hlt

/-- One round of the loop of `fill` is a put. -/
theorem fillLoop (h : Lays b v) (x : T) {k : Nat} (hk : v.lim - v.pos ≤ k) :
    Lays (RawBuffer.fillLoop x k b) (v.fill x) := by
  induction k generalizing b v with
  | zero =>
    have h0 : v.lim - v.pos = 0 := Nat.le_zero.mp hk
    rw [RawBuffer.fillLoop, Buffer.fill, h0]
    exact h
  | succ k ih =>
    by_cases hlt : v.pos < v.lim
    · have hn : v.lim - v.pos = v.lim - (v.pos + 1) + 1 := by omega
      have hfill : v.fill x = (v.put x).fill x := by
        simp only [Buffer.fill, Buffer.put, hn, List.replicate_succ, Block.write,
          Buffer.mk.injEq, true_and, and_true]
        omega
      have hput := h.put x hlt
      rw [RawBuffer.fillLoop, if_pos (h.pos_lt_lim.mpr hlt), hfill]
      refine ih (b := b.put x) hput ?_
      change v.lim - (v.pos + 1) ≤ k
      omega
    · have h0 : v.lim - v.pos = 0 := by omega
      rw [RawBuffer.fillLoop, if_neg fun hp ↦ hlt (h.pos_lt_lim.mp hp), Buffer.fill, h0]
      exact h

/-! ### Methods -/

theorem setMark (h : Lays b v) : Lays b.setMark v.setMark :=
  ⟨h.pos_eq, h.lim_eq, h.stop_eq, h.pos_eq, h.own_eq, h.cell, ⟨h.valid.pos_le, h.valid.lim_le⟩,
    h.valid.pos_le, h.stop_lt, h.not_stray⟩

theorem reset (h : Lays b v) : Lays b.reset v.reset :=
  ⟨h.mark_eq, h.lim_eq, h.stop_eq, h.mark_eq, h.own_eq, h.cell, ⟨h.mark_le, h.valid.lim_le⟩,
    h.mark_le, h.stop_lt, h.not_stray⟩

/-- Position and mark are back at the start, and the limit has moved. -/
theorem restart {l : Nat} (h : Lays b v) (hl : l ≤ v.capacity) :
    Lays { b with pos := b.base, mark := b.base, lim := Pointer.item T b.base l }
      { v with pos := 0, mark := 0, lim := l } :=
  ⟨(Pointer.item_zero _).symm, rfl, h.stop_eq, (Pointer.item_zero _).symm, h.own_eq, h.cell,
    ⟨Nat.zero_le _, hl⟩, Nat.zero_le _, h.stop_lt, h.not_stray⟩

theorem rewind (h : Lays b v) : Lays b.rewind v.rewind := by
  have hr := h.restart h.valid.lim_le
  rwa [← h.lim_eq] at hr

theorem clear (h : Lays b v) : Lays b.clear v.clear := by
  have hr := h.restart (Nat.le_refl v.capacity)
  rwa [← h.stop_eq] at hr

theorem clearTo (h : Lays b v) (sz : Nat) : Lays (b.clearTo sz) (v.clearTo sz) := by
  have hle : (if sz > v.capacity then v.capacity else sz) ≤ v.capacity := by
    split <;> omega
  rw [RawBuffer.clearTo, Buffer.clearTo, h.capacity_eq, h.add_base hle]
  exact h.restart hle

theorem flip (h : Lays b v) : Lays b.flip v.flip := by
  have hr := h.restart (Nat.le_trans h.valid.pos_le h.valid.lim_le)
  rwa [← h.pos_eq] at hr

theorem fill (h : Lays b v) (x : T) : Lays (b.fill x) (v.fill x) := by
  apply h.fillLoop
  have hp : 0 < Item.size T := Item.size_pos
  obtain ⟨k, hk⟩ := Nat.exists_eq_add_of_le h.valid.pos_le
  rw [h.lim_eq, h.pos_eq, hk, ← Pointer.item_item, Pointer.item, Nat.add_sub_cancel_left,
    Nat.add_sub_cancel_left]
  exact Nat.le_mul_of_pos_right k hp

theorem get (h : Lays b v) (hlt : v.pos < v.lim) :
    v.mem[v.pos]? = some b.get.1 ∧ Lays b.get.2 { v with pos := v.pos + 1 } := by
  rcases h.load_eq hlt with ⟨hm, hload⟩
  have hnext := h.add_pos (n := 1) hlt
  rw [RawBuffer.get, hnext, h.pos_eq, hload]
  exact ⟨List.getElem?_eq_getElem hm, h.withPos (p := v.pos + 1) hlt⟩

theorem getTo (h : Lays b v) : b.getTo.1 = v.getTo.1 ∧ Lays b.getTo.2 v.getTo.2 := by
  by_cases he : v.pos = v.lim
  · rw [RawBuffer.getTo, if_pos (h.pos_eq_lim.mpr he), Buffer.getTo, if_pos he]
    exact ⟨rfl, h⟩
  · have hp := h.valid.pos_le
    rcases h.get (by omega) with ⟨hitem, hget⟩
    rw [RawBuffer.getTo, if_neg fun hb ↦ he (h.pos_eq_lim.mp hb), Buffer.getTo, if_neg he]
    exact ⟨hitem.symm, hget⟩

/-- The end of what does not fit is past the limit, as long as it has not wrapped around. -/
theorem noWrap_iff (h : Lays b v) :
    b.NoWrap n ↔ (v.lim < v.pos + n → b.lim < Pointer.add T b.pos n) := by
  have hp := h.valid.pos_le
  rw [NoWrap, h.available_eq]
  constructor
  · intro hc hn
    exact hc.resolve_left (by omega)
  · intro hc
    by_cases hn : n ≤ v.lim - v.pos
    · exact .inl hn
    · exact .inr (hc (by omega))

theorem putBlock_short (h : Lays b v) {xs : List T} (hc : b.NoWrap xs.length)
    (hn : v.lim < v.pos + xs.length) : b.putBlock xs = (0, b) :=
  if_pos (h.noWrap_iff.mp hc hn)

theorem getBlock_short (h : Lays b v) (hc : b.NoWrap n) (hn : v.lim < v.pos + n) :
    b.getBlock n = (0, [], b) :=
  if_pos (h.noWrap_iff.mp hc hn)

/-- A block is put as into the block of memory, if the place behind it has not wrapped around. -/
theorem putBlock (h : Lays b v) (xs : List T)
    (hc : b.NoWrap xs.length) :
    (b.putBlock xs).1 = (v.putBlock xs).1 ∧ Lays (b.putBlock xs).2 (v.putBlock xs).2 := by
  by_cases hle : v.pos + xs.length ≤ v.lim
  · have hcopy := h.copyIn xs hle
    have hend : Pointer.item T b.base (v.pos + xs.length) =
        Pointer.item T (b.copyIn (Pointer.item T b.base v.pos) xs).base (v.pos + xs.length) := by
      rw [base_copyIn]
    rw [RawBuffer.putBlock, if_neg (h.not_add_gt hle), Buffer.putBlock_of_le hle, h.add_pos hle,
      h.pos_eq, hend]
    exact ⟨rfl, hcopy.withPos hle⟩
  · have hlt := Nat.lt_of_not_le hle
    rw [h.putBlock_short hc hlt, Buffer.putBlock_of_lt hlt]
    exact ⟨rfl, h⟩

theorem getBlock (h : Lays b v) (hc : b.NoWrap n) :
    (b.getBlock n).1 = (v.getBlock n).1 ∧ (b.getBlock n).2.1 = (v.getBlock n).2.1 ∧
      Lays (b.getBlock n).2.2 (v.getBlock n).2.2 := by
  by_cases hle : v.pos + n ≤ v.lim
  · rw [RawBuffer.getBlock, if_neg (h.not_add_gt hle), Buffer.getBlock_of_le hle, h.add_pos hle,
      h.pos_eq, h.copyOut_eq hle]
    exact ⟨rfl, rfl, h.withPos hle⟩
  · have hlt := Nat.lt_of_not_le hle
    rw [h.getBlock_short hc hlt, Buffer.getBlock_of_lt hlt]
    exact ⟨rfl, rfl, h⟩

theorem back_lim (h : Lays b v) :
    Pointer.back T b.lim b.position = Pointer.item T b.base (v.lim - v.pos) := by
  have hp := h.valid.pos_le
  have hl : v.lim - v.pos + v.pos = v.lim := by omega
  have hlt := h.lim_lt (Nat.le_refl v.lim)
  rw [← hl] at hlt
  have hback := Pointer.back_item hlt
  rw [h.position_eq]
  rwa [hl, ← h.lim_eq] at hback

/-- The copy of `compact` is one in the block. -/
theorem copyToBase (h : Lays b v) :
    Lays (b.copyDown b.base b.pos b.available)
      { v with mem := Block.copyForwards v.mem 0 v.pos v.available } := by
  have hp := h.valid.pos_le
  have hcopy := h.copyDown (n := v.lim - v.pos) (Nat.zero_le v.pos) (by omega)
  rw [Pointer.item_zero] at hcopy
  rw [h.available_eq, Buffer.available_of_le hp, h.pos_eq]
  exact hcopy

/-- The items left are at the start, and the mark is where it was. -/
theorem compact_queries (h : Lays b v) :
    b.compact.getMark = v.mark ∧ b.compact.size = v.lim - v.pos := by
  refine ⟨h.copyToBase.getMark_eq, ?_⟩
  change Pointer.diff T (Pointer.back T b.lim b.position) (b.copyDown b.base b.pos b.available).base
    = _
  rw [h.back_lim, base_copyDown]
  exact Pointer.diff_base (h.lim_lt (Nat.sub_le _ _))

/-- The limit has come down, and the position is at the start. -/
theorem shrink {l : Nat} (h : Lays b v) (hl : l ≤ v.lim) (hm : v.mark ≤ l) :
    Lays { b with lim := Pointer.item T b.base l, pos := b.base } { v with lim := l, pos := 0 } :=
  ⟨(Pointer.item_zero _).symm, rfl, h.stop_eq, h.mark_eq, h.own_eq, h.cell,
    ⟨Nat.zero_le _, Nat.le_trans hl h.valid.lim_le⟩, hm, h.stop_lt, h.not_stray⟩

theorem compact (h : Lays b v) (hc : v.mark ≤ v.lim - v.pos) : Lays b.compact v.compact := by
  have hs := h.copyToBase.shrink (l := v.lim - v.pos) (Nat.sub_le _ _) hc
  simpa only [RawBuffer.compact, Buffer.compact, base_copyDown, h.back_lim] using hs

/-- Where no pointer leaves the address space and the distance is an `int`, `align` comes to the
place that it comes to in the block. -/
theorem alignTo_eq (h : Lays b v) (hn : 1 ≤ n) (hg : gap b.position n < 2 ^ 31)
    (hf : Pointer.item T b.pos (gap b.position n).toNat < 2 ^ 64) :
    b.alignTo n = Pointer.item T b.base (v.pos + (gap v.pos n).toNat) := by
  have hpos := gap_pos b.position hn
  have hmove := Pointer.move_base hf
  rw [Int.toNat_of_nonneg (Int.le_of_lt hpos)] at hmove
  rw [alignTo, toInt32_of_lt _ (by omega) hg, hmove, h.position_eq, h.pos_eq, Pointer.item_item]

/-- `align` takes the position to a place up to the limit or leaves it, as in the block if the place
is the same. -/
theorem align (h : Lays b v) (hn : 1 ≤ n)
    (hc : (toInt32 b.position).tmod n = 0 ∨ b.stop ≤ b.alignTo n ∨
      ∃ q, q ≤ b.size ∧ b.alignTo n = Pointer.item T b.base q) :
    ∃ v', Lays (b.align n) v' ∧ (gap b.position n < 2 ^ 31 →
      Pointer.item T b.pos (gap b.position n).toNat < 2 ^ 64 → v.align n = v') := by
  by_cases hr : (toInt32 b.position).tmod n ≠ 0
  · rw [RawBuffer.align, if_pos hr]
    have hr' : (toInt32 v.pos).tmod n ≠ 0 := by rwa [← h.position_eq]
    have hto {q : Nat} (hg : gap b.position n < 2 ^ 31)
        (hf : Pointer.item T b.pos (gap b.position n).toNat < 2 ^ 64)
        (he : b.alignTo n = Pointer.item T b.base q) : q = v.pos + (gap v.pos n).toNat :=
      Pointer.item_inj.mp (he.symm.trans (h.alignTo_eq hn hg hf))
    by_cases hlt : b.alignTo n < b.stop
    · obtain ⟨q, hq, he⟩ := (hc.resolve_left hr).resolve_left (Nat.not_le.mpr hlt)
      have hqlt := hlt
      rw [he, h.stop_eq, Pointer.item_lt_item] at hqlt
      rw [if_pos hlt, he]
      refine ⟨_, h.withPos (h.size_eq ▸ hq), ?_⟩
      intro hg hf
      rw [hto hg hf he] at hqlt ⊢
      rw [align_gap, if_pos hr', if_pos hqlt]
    · rw [if_neg hlt]
      refine ⟨v, h, ?_⟩
      intro hg hf
      rw [h.alignTo_eq hn hg hf, h.stop_eq, Pointer.item_lt_item] at hlt
      rw [align_gap, if_pos hr', if_neg hlt]
  · rw [RawBuffer.align, if_neg hr]
    refine ⟨v, h, fun _ _ ↦ ?_⟩
    rw [h.position_eq] at hr
    rw [align_gap, if_neg hr]

/-- With the memory, a buffer of its own loses the base, and one without memory has none. -/
theorem destroy (h : Lays b v) (hc : b.own = true ∨ b.base = 0) : Lays b.destroy Buffer.empty := by
  have hbase : b.destroy.base = 0 := by
    rcases hc with ho | h0
    · simp [RawBuffer.destroy, dealloc, ho]
    · cases ho : b.own <;> simp [RawBuffer.destroy, dealloc, ho, h0]
  have hzero : (0 : Nat) = Pointer.item T b.destroy.base 0 := by
    rw [Pointer.item_zero, hbase]
  have hown : b.destroy.own = false := by
    cases ho : b.own <;> simp [RawBuffer.destroy, dealloc, ho]
  have hstray : b.destroy.stray = false := by
    cases ho : b.own <;> simp [RawBuffer.destroy, dealloc, ho, h.not_stray]
  refine ⟨hzero, hzero, hzero, hzero, hown, fun _ hi ↦ ?_, ⟨Nat.le_refl 0, Nat.le_refl 0⟩,
    Nat.le_refl 0, Nat.two_pow_pos 64, hstray⟩
  cases hi

/-! ### What wraps around -/

theorem touch_lim (h : Lays b v) :
    b.touch (Pointer.item T b.base v.lim) = { b with stray := true } := by
  apply if_neg
  rintro ⟨-, hlt⟩
  rw [h.size_eq, Pointer.item, Nat.add_sub_cancel_left, Nat.mul_div_cancel _ Item.size_pos] at hlt
  exact Nat.lt_irrefl _ hlt

end Lays

theorem stray_touch {b : RawBuffer T} (h : b.stray = true) (a : Nat) :
    (b.touch a).stray = true := by
  unfold touch
  split
  · exact h
  · rfl

theorem stray_copyIn {b : RawBuffer T} (h : b.stray = true) (a : Nat) (xs : List T) :
    (b.copyIn a xs).stray = true := by
  induction xs generalizing b a with
  | nil => exact h
  | cons x xs ih =>
    have hs : (b.store a x).stray = true := stray_touch h a
    exact ih hs _

theorem stray_copyOut {b : RawBuffer T} (h : b.stray = true) (a n : Nat) :
    (b.copyOut a n).2.stray = true := by
  induction n generalizing b a with
  | zero => exact h
  | succ n ih => exact ih (stray_touch h a) _

namespace Lays

variable {b : RawBuffer T} {v : Buffer T} {i n : Nat}

/-- A copy that goes on past the limit touches what is there. -/
theorem copyIn_stray (h : Lays b v) (xs : List T) (hi : i ≤ v.lim) (hn : v.lim < i + xs.length) :
    (b.copyIn (Pointer.item T b.base i) xs).stray = true := by
  have hl := h.valid.lim_le
  induction xs generalizing b v i with
  | nil => exact absurd hn (Nat.not_lt.mpr hi)
  | cons x xs ih =>
    rw [List.length_cons] at hn
    rw [RawBuffer.copyIn]
    by_cases he : i = v.lim
    · rw [he, store, h.touch_lim]
      exact stray_copyIn rfl _ _
    · have hx := h.withItem i x
      rw [h.store_eq (by omega), h.add_eq (by omega)]
      exact ih hx (by change i + 1 ≤ v.lim; omega) (by change v.lim < i + 1 + xs.length; omega)
        hx.valid.lim_le

theorem copyOut_stray (h : Lays b v) (hi : i ≤ v.lim) (hn : v.lim < i + n) :
    (b.copyOut (Pointer.item T b.base i) n).2.stray = true := by
  have hl := h.valid.lim_le
  induction n generalizing i with
  | zero => exact absurd hn (Nat.not_lt.mpr hi)
  | succ n ih =>
    by_cases he : i = v.lim
    · rw [he, copyOut, load, h.touch_lim]
      exact stray_copyOut rfl _ _
    · rcases h.load_eq (i := i) (by omega) with ⟨hm, hload⟩
      rw [copyOut, hload, h.add_eq (by omega)]
      exact ih (by omega) (by omega)

/-- A block that does not fit is transferred all the same, if the end of it has wrapped around to a
place up to the limit, and what lies behind the limit is touched. -/
theorem putBlock_wrapped (h : Lays b v) {xs : List T} (hc : ¬b.NoWrap xs.length) :
    v.lim < v.pos + xs.length ∧ (b.putBlock xs).1 = xs.length ∧
      (b.putBlock xs).2.stray = true := by
  rw [h.noWrap_iff, Classical.not_imp] at hc
  rw [RawBuffer.putBlock, if_neg hc.2, h.pos_eq]
  exact ⟨hc.1, rfl, h.copyIn_stray xs h.valid.pos_le hc.1⟩

theorem getBlock_wrapped (h : Lays b v) (hc : ¬b.NoWrap n) :
    v.lim < v.pos + n ∧ (b.getBlock n).1 = n ∧ (b.getBlock n).2.2.stray = true := by
  rw [h.noWrap_iff, Classical.not_imp] at hc
  rw [RawBuffer.getBlock, if_neg hc.2, h.pos_eq]
  exact ⟨hc.1, rfl, h.copyOut_stray h.valid.pos_le hc.1⟩

end Lays

/-! ### Constructors in order -/

/-- A buffer on an array, with its pointers at items of it. -/
theorem lays_array (mem : Nat → T) (arr : Nat) {p l c m : Nat} (own : Bool) (hp : p ≤ l)
    (hl : l ≤ c) (hm : m ≤ l) (hc : Pointer.item T arr c < 2 ^ 64) :
    Lays { base := arr, pos := Pointer.item T arr p, lim := Pointer.item T arr l,
           stop := Pointer.item T arr c, mark := Pointer.item T arr m, own, mem, stray := false }
      { mem := (List.range c).map fun i ↦ mem (Pointer.item T arr i), pos := p, lim := l, mark := m,
        own } := by
  have hcap : ((List.range c).map fun i ↦ mem (Pointer.item T arr i)).length = c := by
    rw [List.length_map, List.length_range]
  refine ⟨rfl, rfl, ?_, rfl, rfl, ?_, ⟨hp, ?_⟩, hm, hc, rfl⟩
  · rw [Buffer.capacity, hcap]
  · intro i hi
    rw [List.getElem_map, List.getElem_range]
  · rw [Buffer.capacity, hcap]
    exact hl

/-- The pointers are at items of one array, in order, and all accesses so far were below the
size. -/
def InOrder (b : RawBuffer T) : Prop := ∃ v, Lays b v

theorem inOrder_null (mem : Nat → T) : (null mem).InOrder := by
  have h := lays_array mem 0 false (Nat.le_refl 0) (Nat.le_refl 0) (Nat.le_refl 0)
    (by rw [Pointer.item_zero]; exact Nat.two_pow_pos 64)
  rw [Pointer.item_zero] at h
  exact ⟨_, h⟩

theorem inOrder_assigned (mem : Nat → T) {arr sz cap : Nat} (own : Bool) (hs : sz ≤ cap)
    (hc : Pointer.item T arr cap < 2 ^ 64) : (assigned mem arr sz cap own).InOrder := by
  have hsz := Nat.lt_of_le_of_lt (Pointer.item_le_item.mpr hs) hc
  rw [assigned, Pointer.add_base hsz, Pointer.add_base hc]
  exact ⟨_, lays_array mem _ own hs (Nat.le_refl cap) hs hc⟩

theorem inOrder_fixed (mem : Nat → T) {arr cap : Nat} (own : Bool)
    (hc : Pointer.item T arr cap < 2 ^ 64) : (fixed mem arr cap own).InOrder := by
  have h := lays_array mem _ own (Nat.zero_le cap) (Nat.le_refl cap) (Nat.zero_le cap) hc
  rw [Pointer.item_zero] at h
  rw [fixed, Pointer.add_base hc]
  exact ⟨_, h⟩

/-- A copy of a buffer in order is in order, and reads the other one below its size. -/
theorem InOrder.copy {rhs : RawBuffer T} (h : rhs.InOrder) (mem : Nat → T) {arr : Nat}
    (hc : Pointer.item T arr rhs.capacity < 2 ^ 64) :
    (rhs.copy mem arr).1 = rhs ∧ (rhs.copy mem arr).2.InOrder := by
  rcases h with ⟨v, h⟩
  have hp := h.valid.pos_le
  have hl := h.valid.lim_le
  have hm := h.mark_le
  rw [h.capacity_eq] at hc
  have hlt {i : Nat} (hi : i ≤ v.capacity) : Pointer.item T arr i < 2 ^ 64 :=
    Nat.lt_of_le_of_lt (Pointer.item_le_item.mpr hi) hc
  have hcap : (alloc mem arr v.capacity).capacity = v.capacity := by
    rw [RawBuffer.capacity, alloc, fixed, Pointer.add_base hc]
    exact Pointer.diff_base hc
  have hout := h.copyOut_eq (i := 0) (n := v.lim) (by omega)
  have hnew := lays_array mem arr true hp hl hm hc
  have hlen : (Block.read v.mem 0 v.lim).length = v.lim :=
    Block.length_read _ _ _ (by rw [Nat.zero_add]; exact hl)
  have hin := hnew.copyIn (i := 0) (Block.read v.mem 0 v.lim)
    (by rw [hlen, Nat.zero_add])
  rw [Pointer.item_zero] at hout hin
  simp only [RawBuffer.copy, h.capacity_eq, h.size_eq, hcap, if_neg (Nat.not_lt.mpr hl), hout,
    h.position_eq, h.getMark_eq]
  refine ⟨trivial, ?_⟩
  simp only [alloc, fixed, Pointer.add_base (hlt hl), Pointer.add_base (hlt (Nat.le_trans hp hl)),
    Pointer.add_base (hlt (Nat.le_trans hm hl)), Pointer.add_base hc]
  exact ⟨_, hin⟩

/-! ### Calls -/

/-- The methods. -/
inductive Op (T : Type) where
  | mark
  | reset
  | rewind
  | clear
  | clearTo (sz : Nat)
  | flip
  | compact
  | align (n : Nat)
  | fill (v : T)
  | put (v : T)
  | get
  | getTo
  | putBlock (xs : List T)
  | getBlock (n : Nat)
  | destroy

/-- One call. Single items are put and got only if there is one, and positions are aligned to
positive `int`s. -/
def step (b : RawBuffer T) : Op T → Option (RawBuffer T)
  | .mark => some b.setMark
  | .reset => some b.reset
  | .rewind => some b.rewind
  | .clear => some b.clear
  | .clearTo sz => some (b.clearTo sz)
  | .flip => some b.flip
  | .compact => some b.compact
  | .align n => if 1 ≤ n ∧ n < 2 ^ 31 then some (b.align n) else none
  | .fill v => some (b.fill v)
  | .put v => if b.hasAvailable then some (b.put v) else none
  | .get => if b.hasAvailable then some b.get.2 else none
  | .getTo => some b.getTo.2
  | .putBlock xs => some (b.putBlock xs).2
  | .getBlock n => some (b.getBlock n).2.2
  | .destroy => some b.destroy

/-- What a call hands back: a count of items, and items. -/
def answer (b : RawBuffer T) : Op T → Nat × List T
  | .get => (1, [b.get.1])
  | .getTo => (b.getTo.1.toList.length, b.getTo.1.toList)
  | .putBlock xs => ((b.putBlock xs).1, [])
  | .getBlock n => ((b.getBlock n).1, (b.getBlock n).2.1)
  | _ => (0, [])

/-- What the calls of a run hand back, one after another. -/
def answers (b : RawBuffer T) : List (Op T) → List (Nat × List T)
  | [] => []
  | op :: ops =>
    match b.step op with
    | none => []
    | some b' => b.answer op :: answers b' ops

/-- Buffers as constructors make them, on arrays that the address space has room for. The copy
constructor takes a buffer whose pointers are in order. -/
inductive Constructed : RawBuffer T → Prop where
  | null (mem : Nat → T) : Constructed (null mem)
  | alloc (mem : Nat → T) (arr cap : Nat) (hc : Pointer.item T arr cap < 2 ^ 64) :
      Constructed (alloc mem arr cap)
  | fixed (mem : Nat → T) (arr cap : Nat) (own : Bool) (hc : Pointer.item T arr cap < 2 ^ 64) :
      Constructed (fixed mem arr cap own)
  | assigned (mem : Nat → T) (arr sz cap : Nat) (own : Bool) (hs : sz ≤ cap)
      (hc : Pointer.item T arr cap < 2 ^ 64) : Constructed (assigned mem arr sz cap own)
  | copy (rhs : RawBuffer T) (h : rhs.InOrder) (mem : Nat → T) (arr : Nat)
      (hc : Pointer.item T arr rhs.capacity < 2 ^ 64) : Constructed (rhs.copy mem arr).2

/-- Constructors and calls. -/
def machine (T : Type) [Item T] : Machine (RawBuffer T) (Op T) where
  init := Constructed
  step := step

/-- What the queries promise in a state whose position is that of an item, with no access
outside. -/
structure Sound (b : RawBuffer T) : Prop where
  at_item : b.pos = Pointer.item T b.base b.position
  position_le : b.position ≤ b.size
  size_le : b.size ≤ b.capacity
  mark_le : b.getMark ≤ b.size
  available_eq : b.available = b.size - b.position
  not_stray : b.stray = false

/-- A call leaves what is promised, and a destroyed buffer is empty. -/
def Keeps (b : RawBuffer T) (op : Op T) : Prop :=
  ∀ b', step b op = some b' →
    b'.Sound ∧ (op = .destroy → b'.capacity = 0 ∧ b'.size = 0 ∧ b'.position = 0)

/-- A call that does no harm: the position is aligned to a place up to the limit, or to none in
the buffer, what is compacted leaves no mark behind, no block is so long that the end of it wraps
around, and what is destroyed was the buffer's own. -/
def Careful (b : RawBuffer T) : Op T → Prop
  | .align n =>
    1 ≤ n ∧ n < 2 ^ 31 → (toInt32 b.position).tmod n = 0 ∨ b.stop ≤ b.alignTo n ∨
      ∃ q, q ≤ b.size ∧ b.alignTo n = Pointer.item T b.base q
  | .compact => b.getMark ≤ b.available
  | .putBlock xs => b.NoWrap xs.length
  | .getBlock n => b.NoWrap n
  | .destroy => b.own = true ∨ b.base = 0
  | _ => True

/-- The next multiple has an address, and its distance is an `int`. -/
def Fits (b : RawBuffer T) : Op T → Prop
  | .align n =>
    gap b.position n < 2 ^ 31 ∧ Pointer.item T b.pos (gap b.position n).toNat < 2 ^ 64
  | _ => True

end RawBuffer

/-! ### Calls on the block -/

namespace Buffer

variable {T : Type}

/-- The same calls on the block alone. -/
def step (v : Buffer T) : RawBuffer.Op T → Option (Buffer T)
  | .mark => some v.setMark
  | .reset => some v.reset
  | .rewind => some v.rewind
  | .clear => some v.clear
  | .clearTo sz => some (v.clearTo sz)
  | .flip => some v.flip
  | .compact => some v.compact
  | .align n => if 1 ≤ n ∧ n < 2 ^ 31 then some (v.align n) else none
  | .fill x => some (v.fill x)
  | .put x => if v.full then none else some (v.put x)
  | .get => if v.full then none else v.get.map Prod.snd
  | .getTo => some v.getTo.2
  | .putBlock xs => some (v.putBlock xs).2
  | .getBlock n => some (v.getBlock n).2.2
  | .destroy => some empty

def answer (v : Buffer T) : RawBuffer.Op T → Nat × List T
  | .get => (1, (v.get.map Prod.fst).toList)
  | .getTo => (v.getTo.1.toList.length, v.getTo.1.toList)
  | .putBlock xs => ((v.putBlock xs).1, [])
  | .getBlock n => ((v.getBlock n).1, (v.getBlock n).2.1)
  | _ => (0, [])

def answers (v : Buffer T) : List (RawBuffer.Op T) → List (Nat × List T)
  | [] => []
  | op :: ops =>
    match v.step op with
    | none => []
    | some v' => v.answer op :: answers v' ops

/-- Buffers on a block, and the calls. -/
def machine (T : Type) : Machine (Buffer T) (RawBuffer.Op T) where
  init := Valid
  step := step

end Buffer

namespace RawBuffer

variable {T : Type} [Item T]

/-! ### Refinement -/

theorem Lays.full_iff {b : RawBuffer T} {v : Buffer T} (h : Lays b v) :
    b.hasAvailable = true ↔ ¬v.full = true := by
  have hp := h.valid.pos_le
  rw [h.hasAvailable_iff, Buffer.full_iff]
  omega

/-- A careful call on the pointers leaves them at items of one array. It hands back what it does on
the block, and leaves there what it does on the block, if all pointers have addresses. -/
theorem Lays.step {b b' : RawBuffer T} {v : Buffer T} {op : Op T} (h : Lays b v)
    (hc : Careful b op) (hs : b.step op = some b') :
    ∃ v', Lays b' v' ∧ b.answer op = v.answer op ∧ (Fits b op → v.step op = some v') := by
  cases op with
  | mark =>
    cases hs
    exact ⟨_, h.setMark, rfl, fun _ ↦ rfl⟩
  | reset =>
    cases hs
    exact ⟨_, h.reset, rfl, fun _ ↦ rfl⟩
  | rewind =>
    cases hs
    exact ⟨_, h.rewind, rfl, fun _ ↦ rfl⟩
  | clear =>
    cases hs
    exact ⟨_, h.clear, rfl, fun _ ↦ rfl⟩
  | clearTo sz =>
    cases hs
    exact ⟨_, h.clearTo sz, rfl, fun _ ↦ rfl⟩
  | flip =>
    cases hs
    exact ⟨_, h.flip, rfl, fun _ ↦ rfl⟩
  | compact =>
    cases hs
    rw [Careful, h.getMark_eq, h.available_eq] at hc
    exact ⟨_, h.compact hc, rfl, fun _ ↦ rfl⟩
  | align n =>
    rw [RawBuffer.step, Option.ite_none_right_eq_some, Option.some.injEq] at hs
    rcases hs with ⟨hn, rfl⟩
    rcases h.align hn.1 (hc hn) with ⟨v', hv', hfits⟩
    refine ⟨v', hv', rfl, fun hf ↦ ?_⟩
    rw [Buffer.step, if_pos hn, hfits hf.1 hf.2]
  | fill x =>
    cases hs
    exact ⟨_, h.fill x, rfl, fun _ ↦ rfl⟩
  | put x =>
    rw [RawBuffer.step, Option.ite_none_right_eq_some, Option.some.injEq] at hs
    rcases hs with ⟨ha, rfl⟩
    exact ⟨_, h.put x (h.hasAvailable_iff.mp ha), rfl, fun _ ↦ if_neg (h.full_iff.mp ha)⟩
  | get =>
    rw [RawBuffer.step, Option.ite_none_right_eq_some, Option.some.injEq] at hs
    rcases hs with ⟨ha, rfl⟩
    rcases h.get (h.hasAvailable_iff.mp ha) with ⟨hitem, hget⟩
    refine ⟨_, hget, ?_, fun _ ↦ ?_⟩
    · rw [answer, Buffer.answer, Buffer.get, hitem]
      rfl
    · rw [Buffer.step, if_neg (h.full_iff.mp ha), Buffer.get, hitem]
      rfl
  | getTo =>
    cases hs
    rcases h.getTo with ⟨hitem, hget⟩
    exact ⟨_, hget, by rw [answer, Buffer.answer, hitem], fun _ ↦ rfl⟩
  | putBlock xs =>
    cases hs
    rcases h.putBlock xs hc with ⟨hcount, hput⟩
    exact ⟨_, hput, by rw [answer, Buffer.answer, hcount], fun _ ↦ rfl⟩
  | getBlock n =>
    cases hs
    rcases h.getBlock hc with ⟨hcount, hitems, hget⟩
    exact ⟨_, hget, by rw [answer, Buffer.answer, hcount, hitems], fun _ ↦ rfl⟩
  | destroy =>
    cases hs
    exact ⟨_, h.destroy hc, rfl, fun _ ↦ rfl⟩

/-- A run of careful calls on the pointers is one on the block, if all pointers have addresses
throughout, and hands back the same. -/
theorem Lays.run {b b' : RawBuffer T} {v : Buffer T} {ops : List (Op T)} (h : Lays b v)
    (hc : (machine T).Along (fun b op ↦ Careful b op ∧ Fits b op) b ops)
    (hr : (machine T).run b ops = some b') :
    ∃ v', Lays b' v' ∧ (Buffer.machine T).run v ops = some v' ∧ b.answers ops = v.answers ops := by
  induction ops generalizing b v with
  | nil =>
    cases hr
    exact ⟨v, h, rfl, rfl⟩
  | cons op ops ih =>
    obtain ⟨b₁, hs, hr₁⟩ := Option.bind_eq_some_iff.mp hr
    rcases h.step hc.1.1 hs with ⟨v₁, h₁, hanswer, hv₁⟩
    have hstep : v.step op = some v₁ := hv₁ hc.1.2
    rcases ih h₁ (hc.2 b₁ hs) hr₁ with ⟨v', h', hv', hanswers⟩
    refine ⟨v', h', ?_, ?_⟩
    · rw [Machine.run_cons (m := Buffer.machine T) hstep, hv']
    · have hb : b.step op = some b₁ := hs
      rw [answers, Buffer.answers, hb, hstep]
      dsimp only
      rw [hanswer, hanswers]

/-! ### What is kept -/

theorem Lays.sound {b : RawBuffer T} {v : Buffer T} (h : Lays b v) : b.Sound := by
  have hp := h.valid.pos_le
  have hl := h.valid.lim_le
  have hm := h.mark_le
  refine ⟨?_, ?_, ?_, ?_, ?_, h.not_stray⟩
  · rw [h.position_eq]
    exact h.pos_eq
  · rwa [h.position_eq, h.size_eq]
  · rwa [h.size_eq, h.capacity_eq]
  · rwa [h.getMark_eq, h.size_eq]
  · rw [h.available_eq, h.size_eq, h.position_eq]

theorem inOrder_of_constructed {b : RawBuffer T} (h : Constructed b) : b.InOrder := by
  cases h with
  | null mem => exact inOrder_null mem
  | alloc mem arr cap hc => exact inOrder_fixed mem true hc
  | fixed mem arr cap own hc => exact inOrder_fixed mem own hc
  | assigned mem arr sz cap own hs hc => exact inOrder_assigned mem own hs hc
  | copy rhs h mem arr hc => exact (h.copy mem hc).2

/-- A call that is refused does no harm. -/
theorem careful_of_refused {b : RawBuffer T} {op : Op T} (hs : b.step op = none) :
    Careful b op := by
  cases op with
  | align n =>
    intro hn
    rw [RawBuffer.step, if_pos hn] at hs
    cases hs
  | compact => cases hs
  | putBlock xs => cases hs
  | getBlock n => cases hs
  | destroy => cases hs
  | _ => trivial

/-- What a call that keeps the promise must have been like: by the queries behind it. -/
theorem careful_of_sound {b b' : RawBuffer T} {v : Buffer T} {op : Op T} (h : Lays b v)
    (hs : b.step op = some b') (hsound : b'.Sound) : Careful b op := by
  cases op with
  | compact =>
    cases hs
    have hm := hsound.mark_le
    rwa [h.compact_queries.1, h.compact_queries.2, ← h.getMark_eq, ← h.available_eq] at hm
  | align n =>
    rintro hn
    rw [RawBuffer.step, if_pos hn, Option.some.injEq] at hs
    by_cases hr : (toInt32 b.position).tmod n = 0
    · exact .inl hr
    · by_cases hlt : b.alignTo n < b.stop
      · rw [RawBuffer.align, if_pos hr, if_pos hlt] at hs
        have hpos : b'.pos = b.alignTo n := by rw [← hs]
        have hbase : b'.base = b.base := by rw [← hs]
        have hsize : b'.size = b.size := by rw [← hs, size, size]
        have hitem := hsound.at_item
        rw [hpos, hbase] at hitem
        exact .inr (.inr ⟨b'.position, hsize ▸ hsound.position_le, hitem⟩)
      · exact .inr (.inl (Nat.le_of_not_lt hlt))
  | putBlock xs =>
    cases hs
    by_contra hc
    have hstray := hsound.not_stray
    rw [(h.putBlock_wrapped hc).2.2] at hstray
    cases hstray
  | getBlock n =>
    cases hs
    by_contra hc
    have hstray := hsound.not_stray
    rw [(h.getBlock_wrapped hc).2.2] at hstray
    cases hstray
  | destroy =>
    cases hs
    by_contra hc
    simp only [Careful, not_or, Bool.not_eq_true] at hc
    have hbase : b.destroy.base = b.base := by simp [destroy, dealloc, hc.1]
    have hpos := hsound.at_item
    have hle := Pointer.le_item (T := T) b.destroy.base b.destroy.position
    have h0 : b.destroy.pos = 0 := rfl
    rw [← hpos, h0, hbase] at hle
    exact hc.2 (Nat.le_zero.mp hle)
  | _ => trivial

/-- While the pointers are in order, a call keeps the promise exactly if it is careful. -/
theorem keeps_iff {b : RawBuffer T} (h : b.InOrder) (op : Op T) : Keeps b op ↔ Careful b op := by
  rcases h with ⟨v, hv⟩
  constructor
  · intro hk
    cases hs : b.step op with
    | none => exact careful_of_refused hs
    | some b' => exact careful_of_sound hv hs (hk b' hs).1
  · intro hc b' hs
    rcases hv.step hc hs with ⟨v', hv', -⟩
    refine ⟨hv'.sound, ?_⟩
    rintro rfl
    cases hs
    have hd := hv.destroy hc
    exact ⟨hd.capacity_eq, hd.size_eq, hd.position_eq⟩

/-- From every constructor, careful calls on the pointers do what they do on a block of items, and
hand back the same, if all pointers have addresses throughout. -/
theorem rawBuffer_refines {b b' : RawBuffer T} (hb : Constructed b) {ops : List (Op T)}
    (hc : (machine T).Along (fun b op ↦ Careful b op ∧ Fits b op) b ops)
    (hr : (machine T).run b ops = some b') :
    ∃ v v', Lays b v ∧ (Buffer.machine T).run v ops = some v' ∧ Lays b' v' ∧
      b.answers ops = v.answers ops := by
  rcases inOrder_of_constructed hb with ⟨v, hv⟩
  rcases hv.run hc hr with ⟨v', hv', hrun, hanswers⟩
  exact ⟨v, v', hv, hrun, hv', hanswers⟩

/-- Two words put, and read again. -/
theorem rawBuffer_refines_two : ∃ v v', Lays (alloc (fun _ ↦ (0 : UInt32)) 16 4) v ∧
    (Buffer.machine UInt32).run v [.put 7, .put 9, .flip, .getTo, .get] = some v' ∧
      [(0, []), (0, []), (0, []), (1, [7]), (1, [9])] =
        v.answers [.put 7, .put 9, .flip, .getTo, .get] := by
  have hc : (machine UInt32).Along (fun b op ↦ Careful b op ∧ Fits b op)
      (alloc (fun _ ↦ (0 : UInt32)) 16 4) [.put 7, .put 9, .flip, .getTo, .get] :=
    ⟨⟨trivial, trivial⟩, fun _ _ ↦ ⟨⟨trivial, trivial⟩, fun _ _ ↦ ⟨⟨trivial, trivial⟩, fun _ _ ↦
      ⟨⟨trivial, trivial⟩, fun _ _ ↦ ⟨⟨trivial, trivial⟩, fun _ _ ↦ trivial⟩⟩⟩⟩⟩
  obtain ⟨v, v', hv, hrun, -, hanswers⟩ := rawBuffer_refines (.alloc _ 16 4 (by decide)) hc rfl
  exact ⟨v, v', hv, hrun, hanswers⟩

end RawBuffer
end CtrlrFx.Data
