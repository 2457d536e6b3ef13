import CtrlrFx.Base.Machine
import CtrlrFx.Base.Window
import CtrlrFx.Base.Words

/-!
# Circular queues as they are laid out

`CtrlrFx/CircQueue.h` again, now with the four pointers that the class keeps, counted in items, and
the null pointer 0 for a queue without memory. Items are read and written at addresses of the
memory around the queue, and `stray` is set by an access outside of `[base_, end_)`.
-/

namespace CtrlrFx.Data
open Base

/-- Members of the queue, `CtrlrFx/CircQueue.h:46–51`, with the memory they point into. -/
structure RawCircQueue (T : Type) where
  base : Nat
  put : Nat
  get : Nat
  stop : Nat
  own : Bool
  mem : Nat → T
  stray : Bool

namespace RawCircQueue

variable {T : Type}

/-! ### Memory -/

/-- `CtrlrFx/CircQueue.h:183–190`. -/
def dealloc (q : RawCircQueue T) : RawCircQueue T :=
  if q.own then { q with base := 0, own := false } else q

/-- `CtrlrFx/CircQueue.h:232–238`. -/
def destroy (q : RawCircQueue T) : RawCircQueue T :=
  { q.dealloc with base := 0, put := 0, get := 0, stop := 0 }

/-- `CtrlrFx/CircQueue.h:208–225`. -/
def set (q : RawCircQueue T) (buf cap : Nat) (own : Bool) : RawCircQueue T :=
  if cap = 0 then q.destroy
  else { q.dealloc with base := buf, put := buf, get := buf, stop := buf + cap, own := own }

/-- On new memory, which the system has put at `buf`; `CtrlrFx/CircQueue.h:197–203`. -/
def resize (q : RawCircQueue T) (buf cap : Nat) : RawCircQueue T :=
  if cap = 0 then q.destroy else q.set buf cap true

/-- A queue whose constructor has cleared `own_` and nothing else yet;
`CtrlrFx/CircQueue.h:157,163,170`. -/
def shell (q : RawCircQueue T) : RawCircQueue T := { q with own := false, stray := false }

/-! ### Queries -/

/-- `CtrlrFx/CircQueue.h:56–60`. -/
def next (q : RawCircQueue T) (p : Nat) : Nat := if p + 1 = q.stop then q.base else p + 1

/-- `CtrlrFx/CircQueue.h:115`. -/
def capacity (q : RawCircQueue T) : Nat := ptrDiff q.stop q.base

/-- The `int` in which the size is computed; `CtrlrFx/CircQueue.h:244–246`. -/
def sizeInt (q : RawCircQueue T) : Int :=
  let sz := toInt32 ((q.put : Int) - q.get)
  if sz < 0 then toInt32 (toSize (sz + q.capacity)) else sz

/-- `CtrlrFx/CircQueue.h:242–249`. -/
def size (q : RawCircQueue T) : Nat := toSize q.sizeInt

/-- `CtrlrFx/CircQueue.h:118`. -/
def full (q : RawCircQueue T) : Bool := q.next q.put == q.get

/-- `CtrlrFx/CircQueue.h:121`. -/
def empty (q : RawCircQueue T) : Bool := q.put == q.get

/-- `CtrlrFx/CircQueue.h:129`. -/
def remaining (q : RawCircQueue T) : Nat := toSize ((q.capacity : Int) - q.size - 1)

/-! ### Items -/

/-- Notes an access to the item at `a`. -/
def touch (q : RawCircQueue T) (a : Nat) : RawCircQueue T :=
  if q.base ≤ a ∧ a < q.stop then q else { q with stray := true }

/-- `*p = v`. -/
def store (q : RawCircQueue T) (a : Nat) (v : T) : RawCircQueue T :=
  { q.touch a with mem := Function.update q.mem a v }

/-- `*p`. -/
def load (q : RawCircQueue T) (a : Nat) : T × RawCircQueue T := (q.mem a, q.touch a)

/-- `copy_elem` into the queue; `CtrlrFx/CircQueue.h:254–259`. -/
def copyIn (q : RawCircQueue T) (a : Nat) : List T → RawCircQueue T
  | [] => q
  | x :: xs => (q.store a x).copyIn (a + 1) xs

/-- `copy_elem` out of the queue; `CtrlrFx/CircQueue.h:254–259`. -/
def copyOut (q : RawCircQueue T) (a : Nat) : Nat → List T × RawCircQueue T
  | 0 => ([], q)
  | n + 1 =>
    let r := (q.load a).2.copyOut (a + 1) n
    ((q.load a).1 :: r.1, r.2)

/-- `put(v)`; `CtrlrFx/CircQueue.h:265–273`. -/
def put1 (q : RawCircQueue T) (v : T) : Bool × RawCircQueue T :=
  if q.full then (false, q) else (true, { q.store q.put v with put := q.next q.put })

/-- `put(buf, n)`; `CtrlrFx/CircQueue.h:279–299`. -/
def putBlock (q : RawCircQueue T) (buf : List T) : Nat × RawCircQueue T :=
  let n := min buf.length q.remaining
  let nwrap := ptrDiff q.stop q.put
  if n < nwrap then (n, { q.copyIn q.put (buf.take n) with put := q.put + n })
  else
    let nrem := n - nwrap
    let q' := (q.copyIn q.put (buf.take nwrap)).copyIn q.base ((buf.drop nwrap).take nrem)
    (n, { q' with put := q.base + nrem })

/-- `get(p)`, with the item if there is one; `CtrlrFx/CircQueue.h:320–328`. -/
def getTo (q : RawCircQueue T) : Option T × RawCircQueue T :=
  if q.empty then (none, q)
  else (some (q.load q.get).1, { (q.load q.get).2 with get := q.next q.get })

/-- `get()`; `CtrlrFx/CircQueue.h:305–313`. -/
def get1 [Zero T] (q : RawCircQueue T) : T × RawCircQueue T :=
  if q.empty then (0, q)
  else ((q.load q.get).1, { (q.load q.get).2 with get := q.next q.get })

/-- `get(buf, n)`; `CtrlrFx/CircQueue.h:339–362`. -/
def getBlock (q : RawCircQueue T) (n : Nat) : Nat × List T × RawCircQueue T :=
  if q.empty then (0, [], q)
  else
    let n := min n q.size
    let nwrap := ptrDiff q.stop q.get
    if n < nwrap then
      let r := q.copyOut q.get n
      (n, r.1, { r.2 with get := q.get + n })
    else
      let nrem := n - nwrap
      let r := q.copyOut q.get nwrap
      let r' := r.2.copyOut q.base nrem
      (n, r.1 ++ r'.1, { r'.2 with get := q.base + nrem })

/-! ### Copies -/

theorem touch_of_mem {q : RawCircQueue T} {a : Nat} (hb : q.base ≤ a) (ha : a < q.stop) :
    q.touch a = q := if_pos ⟨hb, ha⟩

theorem store_of_mem {q : RawCircQueue T} {a : Nat} (hb : q.base ≤ a) (ha : a < q.stop) (v : T) :
    q.store a v = { q with mem := Function.update q.mem a v } := by
  rw [store, touch_of_mem hb ha]

/-- Whether a copy of `n` items at `a` stays inside. -/
def Inside (q : RawCircQueue T) (a n : Nat) : Prop := n = 0 ∨ q.base ≤ a ∧ a + n ≤ q.stop

theorem stray_touch (q : RawCircQueue T) (a : Nat) :
    (q.touch a).stray = false ↔ q.stray = false ∧ q.Inside a 1 := by
  rw [touch, Inside]
  by_cases h : q.base ≤ a ∧ a < q.stop
  · rw [if_pos h]
    exact ⟨fun hs ↦ ⟨hs, .inr h⟩, And.left⟩
  · rw [if_neg h]
    constructor
    · intro hs
      cases hs
    · rintro ⟨-, h0 | h1⟩
      · cases h0
      · exact absurd h1 h

/-- A copy notes whether it went outside, and touches no member. -/
theorem copyIn_eq (q : RawCircQueue T) (a : Nat) (xs : List T) :
    ∃ st, q.copyIn a xs = { q with mem := Window.store q.mem a xs, stray := st } ∧
      (st = false ↔ q.stray = false ∧ q.Inside a xs.length) := by
  induction xs generalizing q a with
  | nil => exact ⟨q.stray, rfl, ⟨fun h ↦ ⟨h, .inl rfl⟩, And.left⟩⟩
  | cons x xs ih =>
    rcases ih (q.store a x) (a + 1) with ⟨st, hc, hst⟩
    have hstore : ∃ st', q.store a x =
        { q with mem := Function.update q.mem a x, stray := st' } ∧
          (st' = false ↔ q.stray = false ∧ q.Inside a 1) := by
      refine ⟨(q.touch a).stray, ?_, stray_touch q a⟩
      rw [store, touch]
      split <;> rfl
    rcases hstore with ⟨st', hs, hst'⟩
    refine ⟨st, ?_, ?_⟩
    · rw [copyIn, hc, hs]
      rfl
    · rw [hst, hs]
      show (st' = false ∧ (xs.length = 0 ∨ q.base ≤ a + 1 ∧ a + 1 + xs.length ≤ q.stop)) ↔ _
      rw [hst', Inside, Inside, List.length_cons, and_assoc]
      apply and_congr_right
      intro _
      omega

theorem copyOut_eq (q : RawCircQueue T) (a n : Nat) :
    ∃ st, q.copyOut a n = (Window.cells q.mem a n, { q with stray := st }) ∧
      (st = false ↔ q.stray = false ∧ q.Inside a n) := by
  induction n generalizing q a with
  | zero => exact ⟨q.stray, rfl, ⟨fun h ↦ ⟨h, .inl rfl⟩, And.left⟩⟩
  | succ n ih =>
    rcases ih (q.touch a) (a + 1) with ⟨st, hc, hst⟩
    have htouch : ∃ st', q.touch a = { q with stray := st' } ∧
        (st' = false ↔ q.stray = false ∧ q.Inside a 1) := by
      refine ⟨(q.touch a).stray, ?_, stray_touch q a⟩
      rw [touch]
      split <;> rfl
    rcases htouch with ⟨st', hs, hst'⟩
    refine ⟨st, ?_, ?_⟩
    · rw [copyOut, load]
      dsimp only
      rw [hc, hs, Window.cells_succ]
    · rw [hst, hs]
      show (st' = false ∧ (n = 0 ∨ q.base ≤ a + 1 ∧ a + 1 + n ≤ q.stop)) ↔ _
      rw [hst', Inside, Inside, and_assoc]
      apply and_congr_right
      intro _
      omega

/-! ### Where the pointers are -/

/-- A queue without memory. -/
structure Null (q : RawCircQueue T) : Prop where
  base_eq : q.base = 0
  put_eq : q.put = 0
  get_eq : q.get = 0
  stop_eq : q.stop = 0

/-- A queue on an array. The get pointer may have been left at the end, but not the put pointer. -/
structure Held (q : RawCircQueue T) : Prop where
  base_le_put : q.base ≤ q.put
  put_lt : q.put < q.stop
  base_le_get : q.base ≤ q.get
  get_le : q.get ≤ q.stop
  cap_lt : q.stop - q.base < 2 ^ 62

/-- All accesses so far were inside, and the pointers are where they should be. -/
structure Kept (q : RawCircQueue T) : Prop where
  not_stray : q.stray = false
  pointers : q.Null ∨ q.Held

theorem Null.capacity_eq {q : RawCircQueue T} (h : q.Null) : q.capacity = 0 := by
  rw [capacity, h.base_eq, h.stop_eq]
  rfl

theorem Null.empty_eq {q : RawCircQueue T} (h : q.Null) : q.empty = true := by
  rw [empty, h.put_eq, h.get_eq]
  rfl

theorem Null.size_eq {q : RawCircQueue T} (h : q.Null) : q.size = 0 := by
  rw [size, sizeInt, h.put_eq, h.get_eq, h.capacity_eq]
  rfl

namespace Held

variable {q : RawCircQueue T}

theorem capacity_eq (h : q.Held) : q.capacity = q.stop - q.base :=
  ptrDiff_of_le (Nat.le_trans h.base_le_put (Nat.le_of_lt h.put_lt))

theorem capacity_pos (h : q.Held) : 0 < q.capacity := by
  have hp := h.base_le_put
  have hlt := h.put_lt
  rw [h.capacity_eq]
  omega

/-- As long as the capacity is an `int` and one more, the size is exact. -/
theorem sizeInt_eq (h : q.Held) (hc : q.capacity ≤ 2 ^ 31) :
    q.sizeInt = if q.get ≤ q.put then (q.put : Int) - q.get else q.put - q.get + q.capacity := by
  have hp := h.base_le_put
  have hlt := h.put_lt
  have hg := h.base_le_get
  have hle := h.get_le
  have hcap := h.capacity_eq
  have hd := toInt32_of_lt ((q.put : Int) - q.get) (by omega) (by omega)
  unfold sizeInt
  dsimp only
  rw [hd]
  by_cases hgp : q.get ≤ q.put
  · rw [if_neg (by omega), if_pos hgp]
  · rw [if_pos (by omega), if_neg hgp, toSize_of_lt _ (by omega) (by omega),
      toInt32_of_lt _ (by omega) (by omega)]

/-- Whatever the capacity is, the `int` stays below it. -/
theorem sizeInt_lt (h : q.Held) : q.sizeInt < q.capacity := by
  by_cases hc : q.capacity ≤ 2 ^ 31
  · have hp := h.base_le_put
    have hlt := h.put_lt
    have hg := h.base_le_get
    have hcap := h.capacity_eq
    rw [h.sizeInt_eq hc]
    split <;> omega
  · have hlt : q.sizeInt < 2 ^ 31 := by
      unfold sizeInt
      dsimp only
      split
      · exact toInt32_lt _
      · exact toInt32_lt _
    omega

theorem neg_le_sizeInt (q : RawCircQueue T) : -2 ^ 31 ≤ q.sizeInt := by
  unfold sizeInt
  dsimp only
  split
  · exact neg_le_toInt32 _
  · exact neg_le_toInt32 _

/-- In queues that are not too long the `int` is not negative. -/
theorem sizeInt_nonneg (h : q.Held) (hc : q.capacity ≤ 2 ^ 31) : 0 ≤ q.sizeInt := by
  have hp := h.base_le_put
  have hle := h.get_le
  have hcap := h.capacity_eq
  rw [h.sizeInt_eq hc]
  split <;> omega

/-- The size is below the capacity, unless the `int` is negative. -/
theorem size_le_iff (h : q.Held) {k : Nat} (hk : q.capacity ≤ k) (hlt : k < 2 ^ 63) :
    q.size ≤ k ↔ 0 ≤ q.sizeInt := by
  have hu := h.sizeInt_lt
  have hl := neg_le_sizeInt q
  by_cases h0 : 0 ≤ q.sizeInt
  · have hs := toSize_of_lt q.sizeInt h0 (by omega)
    rw [size]
    omega
  · have hs := toSize_of_neg q.sizeInt (by omega) (by omega)
    rw [size]
    omega

/-- What remains is at most the capacity, unless the `int` is below -1. -/
theorem remaining_le_iff (h : q.Held) : q.remaining ≤ q.capacity ↔ -1 ≤ q.sizeInt := by
  have hu := h.sizeInt_lt
  have hl := neg_le_sizeInt q
  have hc := h.cap_lt
  have hcap := h.capacity_eq
  rw [remaining, size]
  by_cases h0 : 0 ≤ q.sizeInt
  · have hs := toSize_of_lt q.sizeInt h0 (by omega)
    have hr := toSize_of_lt ((q.capacity : Int) - toSize q.sizeInt - 1) (by omega) (by omega)
    omega
  · have hs := toSize_of_neg q.sizeInt (by omega) (by omega)
    have hr := toSize_of_neg ((q.capacity : Int) - toSize q.sizeInt - 1) (by omega) (by omega)
    omega

theorem next_mem (h : q.Held) {p : Nat} (hb : q.base ≤ p) (hp : p < q.stop) :
    q.base ≤ q.next p ∧ q.next p < q.stop := by
  have hput := h.base_le_put
  have hlt := h.put_lt
  unfold next
  split <;> omega

end Held

/-! ### Single operations -/

/-- On an array a single put stays inside. -/
theorem Kept.put1 {q : RawCircQueue T} (h : q.Kept) (hq : q.Held) (v : T) : (q.put1 v).2.Kept := by
  rw [RawCircQueue.put1]
  split
  · exact h
  · have hn := hq.next_mem hq.base_le_put hq.put_lt
    rw [store_of_mem hq.base_le_put hq.put_lt]
    exact ⟨h.not_stray, .inr ⟨hn.1, hn.2, hq.base_le_get, hq.get_le, hq.cap_lt⟩⟩

/-- Without memory a single put does not fail. -/
theorem Null.put1 {q : RawCircQueue T} (h : q.Null) (v : T) : (q.put1 v).1 = true := by
  have hf : q.full = false := by
    rw [full, next, h.put_eq, h.stop_eq, h.get_eq]
    rfl
  rw [RawCircQueue.put1, hf]
  rfl

/-- A single get stays inside exactly if it does not find the pointer at the end. -/
theorem Kept.getTo {q : RawCircQueue T} (h : q.Kept) :
    (q.getTo.2.stray = false ↔ q.empty = true ∨ q.get ≠ q.stop) ∧
      (q.getTo.2.stray = false → q.getTo.2.Kept) := by
  by_cases he : q.empty = true
  · rw [RawCircQueue.getTo, if_pos he]
    exact ⟨iff_of_true h.not_stray (.inl he), fun _ ↦ h⟩
  · have hq : q.Held := h.pointers.resolve_left fun hn ↦ he hn.empty_eq
    rw [RawCircQueue.getTo, if_neg he]
    by_cases hs : q.get = q.stop
    · have hst : (q.touch q.get).stray = true := by
        rw [touch, hs, if_neg (by omega)]
      have hne : ¬(q.touch q.get).stray = false := by
        rw [hst]
        decide
      exact ⟨iff_of_false hne (not_or.mpr ⟨he, fun hg ↦ hg hs⟩), fun hf ↦ absurd hf hne⟩
    · have hlt : q.get < q.stop := Nat.lt_of_le_of_ne hq.get_le hs
      have hn := hq.next_mem hq.base_le_get hlt
      rw [load, touch_of_mem hq.base_le_get hlt]
      exact ⟨iff_of_true h.not_stray (.inr hs), fun _ ↦
        ⟨h.not_stray, .inr ⟨hq.base_le_put, hq.put_lt, hn.1, Nat.le_of_lt hn.2, hq.cap_lt⟩⟩⟩

/-- A block put that accepts no more than the capacity stays inside. -/
theorem Kept.putBlock {q : RawCircQueue T} (h : q.Kept) (hq : q.Held) {buf : List T}
    (hn : min buf.length q.remaining ≤ q.capacity) : (q.putBlock buf).2.Kept := by
  have hb := hq.base_le_put
  have hlt := hq.put_lt
  have hcap := hq.capacity_eq
  have hw := ptrDiff_of_le (Nat.le_of_lt hlt)
  unfold RawCircQueue.putBlock
  generalize min buf.length q.remaining = n at hn
  simp only [hw]
  split
  · next hns =>
    rcases copyIn_eq q q.put (buf.take n) with ⟨st, hc, hst⟩
    have hin : q.Inside q.put (buf.take n).length := by
      right
      rw [List.length_take]
      omega
    rw [hc]
    exact ⟨hst.mpr ⟨h.not_stray, hin⟩, .inr ⟨Nat.le_add_right_of_le hb,
      by show q.put + n < q.stop; omega, hq.base_le_get, hq.get_le, hq.cap_lt⟩⟩
  · next hns =>
    -- the block goes around the end, and no further than the pointer was
    rcases copyIn_eq q q.put (buf.take (q.stop - q.put)) with ⟨st, hc, hst⟩
    have hin : q.Inside q.put (buf.take (q.stop - q.put)).length := by
      right
      rw [List.length_take]
      omega
    rw [hc]
    rcases copyIn_eq { q with
      mem := Window.store q.mem q.put (buf.take (q.stop - q.put)), stray := st } q.base
      ((buf.drop (q.stop - q.put)).take (n - (q.stop - q.put))) with ⟨st', hc', hst'⟩
    have hin' : q.base ≤ q.base ∧ q.base +
        ((buf.drop (q.stop - q.put)).take (n - (q.stop - q.put))).length ≤ q.stop := by
      rw [List.length_take]
      omega
    rw [hc']
    exact ⟨hst'.mpr ⟨hst.mpr ⟨h.not_stray, hin⟩, .inr hin'⟩, .inr ⟨Nat.le_add_right _ _,
      by show q.base + (n - (q.stop - q.put)) < q.stop; omega, hq.base_le_get, hq.get_le,
      hq.cap_lt⟩⟩

/-- Without memory a block put accepts what it is given. -/
theorem Null.putBlock {q : RawCircQueue T} (h : q.Null) (buf : List T) :
    (q.putBlock buf).1 = min buf.length (2 ^ 64 - 1) ∧ (q.putBlock []).2 = q := by
  have hr : q.remaining = 2 ^ 64 - 1 := by
    rw [remaining, h.capacity_eq, h.size_eq]
    rfl
  have hw : ptrDiff q.stop q.put = 0 := by
    rw [h.stop_eq, h.put_eq]
    rfl
  have hbase : q.base + 0 = q.put := by
    rw [h.base_eq, h.put_eq]
  constructor
  · simp only [RawCircQueue.putBlock, hr, hw, Nat.not_lt_zero, if_false]
  · simp only [RawCircQueue.putBlock, hw, Nat.not_lt_zero, if_false, List.length_nil, Nat.zero_min,
      Nat.sub_self, List.take_nil, List.drop_nil, copyIn, hbase]

/-- A block get stays inside exactly if it goes around the end no more than once. -/
theorem Kept.getBlock {q : RawCircQueue T} (h : q.Kept) (n : Nat) :
    ((q.getBlock n).2.2.stray = false ↔
        q.empty = true ∨ min n q.size ≤ q.capacity + (q.stop - q.get)) ∧
      ((q.getBlock n).2.2.stray = false → (q.getBlock n).2.2.Kept) := by
  unfold RawCircQueue.getBlock
  by_cases he : q.empty = true
  · rw [if_pos he]
    exact ⟨iff_of_true h.not_stray (.inl he), fun _ ↦ h⟩
  · have hq : q.Held := h.pointers.resolve_left fun hn ↦ he hn.empty_eq
    have hb := hq.base_le_get
    have hle := hq.get_le
    have hcap := hq.capacity_eq
    have hput := hq.base_le_put
    have hplt := hq.put_lt
    have hw := ptrDiff_of_le hle
    rw [if_neg he]
    generalize min n q.size = m
    simp only [hw, he, Bool.false_eq_true, false_or]
    split
    · next hms =>
      rcases copyOut_eq q q.get m with ⟨st, hc, hst⟩
      have hin : q.Inside q.get m := .inr ⟨hb, by omega⟩
      have hst0 := hst.mpr ⟨h.not_stray, hin⟩
      rw [hc]
      exact ⟨iff_of_true hst0 (by omega), fun _ ↦ ⟨hst0, .inr ⟨hput, hplt,
        Nat.le_add_right_of_le hb, by show q.get + m ≤ q.stop; omega, hq.cap_lt⟩⟩⟩
    · next hms =>
      rcases copyOut_eq q q.get (q.stop - q.get) with ⟨st, hc, hst⟩
      have hin : q.Inside q.get (q.stop - q.get) := .inr ⟨hb, by omega⟩
      have hst0 := hst.mpr ⟨h.not_stray, hin⟩
      rw [hc]
      rcases copyOut_eq { q with stray := st } q.base (m - (q.stop - q.get)) with ⟨st', hc', hst'⟩
      have hin' : { q with stray := st }.Inside q.base (m - (q.stop - q.get)) ↔
          m ≤ q.capacity + (q.stop - q.get) := by
        show (m - (q.stop - q.get) = 0 ∨ q.base ≤ q.base ∧
          q.base + (m - (q.stop - q.get)) ≤ q.stop) ↔ _
        omega
      rw [hin'] at hst'
      rw [hc']
      refine ⟨hst'.trans (and_iff_right hst0), fun hs ↦ ?_⟩
      have hm := (hst'.mp hs).2
      exact ⟨hs, .inr ⟨hput, hplt, Nat.le_add_right _ _,
        by show q.base + (m - (q.stop - q.get)) ≤ q.stop; omega, hq.cap_lt⟩⟩

/-! ### Runs -/

/-- The calls. -/
inductive Op (T : Type) where
  | set (buf cap : Nat) (own : Bool)
  | resize (buf cap : Nat)
  | destroy
  | put (v : T)
  | putBlock (buf : List T)
  | get
  | getTo
  | getBlock (n : Nat)

/-- Arrays that there is room for. -/
def Placed (buf cap : Nat) : Prop := buf + cap < 2 ^ 64 ∧ cap < 2 ^ 62

instance (buf cap : Nat) : Decidable (Placed buf cap) := inferInstanceAs (Decidable (_ ∧ _))

variable [Zero T]

/-- One call. The memory of a queue is an array that there is room for. -/
def step (q : RawCircQueue T) : Op T → Option (RawCircQueue T)
  | .set buf cap own => if Placed buf cap then some (q.set buf cap own) else none
  | .resize buf cap => if Placed buf cap then some (q.resize buf cap) else none
  | .destroy => some q.destroy
  | .put v => some (q.put1 v).2
  | .putBlock buf => some (q.putBlock buf).2
  | .get => some q.get1.2
  | .getTo => some q.getTo.2
  | .getBlock n => some (q.getBlock n).2.2

/-- Queues as constructors make them. -/
inductive Constructed : RawCircQueue T → Prop where
  | default (q : RawCircQueue T) : Constructed q.shell.destroy
  | alloc (q : RawCircQueue T) (buf cap : Nat) (h : Placed buf cap) :
      Constructed (q.shell.resize buf cap)
  | array (q : RawCircQueue T) (buf cap : Nat) (own : Bool) (h : Placed buf cap) :
      Constructed (q.shell.set buf cap own)

/-- Constructors and calls. -/
def machine (T : Type) [Zero T] : Machine (RawCircQueue T) (Op T) where
  init := Constructed
  step := step

/-- How many items a call accepts. -/
def accepted (q : RawCircQueue T) : Op T → Nat
  | .put v => if (q.put1 v).1 then 1 else 0
  | .putBlock buf => (q.putBlock buf).1
  | _ => 0

/-- A call stays inside the memory, and accepts no more items than there are cells. -/
def Keeps (q : RawCircQueue T) (op : Op T) : Prop :=
  ∀ q', step q op = some q' → q'.stray = false ∧ accepted q op ≤ q.capacity

/-- A call that does no harm: nothing is put where there is no memory, and a block longer than the
memory is put or got only where the `int` of the size has not become negative. -/
def Careful (q : RawCircQueue T) : Op T → Prop
  | .put _ => q.capacity ≠ 0
  | .putBlock buf => buf.length ≤ q.capacity ∨ q.capacity ≠ 0 ∧ -1 ≤ q.sizeInt
  | .get | .getTo => q.empty = true ∨ q.get ≠ q.stop
  | .getBlock n => q.empty = true ∨ n ≤ q.capacity + (q.stop - q.get) ∨ 0 ≤ q.sizeInt
  | _ => True

omit [Zero T] in
theorem stray_dealloc (q : RawCircQueue T) : q.dealloc.stray = q.stray := by
  unfold dealloc
  split <;> rfl

omit [Zero T] in
theorem kept_destroy {q : RawCircQueue T} (h : q.stray = false) : q.destroy.Kept :=
  ⟨(stray_dealloc q).trans h, .inl ⟨rfl, rfl, rfl, rfl⟩⟩

omit [Zero T] in
theorem kept_set {q : RawCircQueue T} (h : q.stray = false) {buf cap : Nat} (own : Bool)
    (hp : Placed buf cap) : (q.set buf cap own).Kept := by
  unfold set
  split
  · exact kept_destroy h
  · refine ⟨(stray_dealloc q).trans h, .inr ⟨Nat.le_refl _, ?_, Nat.le_refl _, ?_, ?_⟩⟩
    · show buf < buf + cap
      omega
    · exact Nat.le_add_right _ _
    · show buf + cap - buf < 2 ^ 62
      have hc := hp.2
      omega

omit [Zero T] in
theorem kept_resize {q : RawCircQueue T} (h : q.stray = false) {buf cap : Nat}
    (hp : Placed buf cap) : (q.resize buf cap).Kept := by
  unfold resize
  split
  · exact kept_destroy h
  · exact kept_set h true hp

omit [Zero T] in
theorem kept_of_constructed {q : RawCircQueue T} (h : Constructed q) : q.Kept := by
  cases h with
  | default q => exact kept_destroy rfl
  | alloc q buf cap hp => exact kept_resize rfl hp
  | array q buf cap own hp => exact kept_set rfl own hp

/-- `get()` is `get(p)` with zero for no item. -/
theorem get1_eq (q : RawCircQueue T) : q.get1 = (q.getTo.1.getD 0, q.getTo.2) := by
  unfold get1 getTo
  split <;> rfl

omit [Zero T] in
theorem Kept.capacity_ne_iff {q : RawCircQueue T} (h : q.Kept) : q.capacity ≠ 0 ↔ q.Held := by
  rcases h.pointers with hn | hq
  · exact iff_of_false (not_not_intro hn.capacity_eq) fun hq ↦ by
      have hc := hq.capacity_pos
      rw [hn.capacity_eq] at hc
      omega
  · exact iff_of_true (Nat.ne_of_gt hq.capacity_pos) hq

/-- While all was inside so far, a single put stays there exactly if there is memory. -/
theorem Kept.keeps_put {q : RawCircQueue T} (h : q.Kept) (v : T) :
    Keeps q (.put v) ↔ Careful q (.put v) := by
  rw [Careful]
  constructor
  · intro hk
    have ha := (hk _ rfl).2
    intro h0
    have hn : q.Null := h.pointers.resolve_right fun hq ↦ (h.capacity_ne_iff.mpr hq) h0
    rw [accepted, if_pos (hn.put1 v)] at ha
    omega
  · rintro hc q' ⟨⟩
    refine ⟨(h.put1 (h.capacity_ne_iff.mp hc) v).not_stray, ?_⟩
    rw [accepted]
    split <;> omega

theorem Kept.keeps_putBlock {q : RawCircQueue T} (h : q.Kept) (buf : List T) :
    (Keeps q (.putBlock buf) ↔ Careful q (.putBlock buf)) ∧
      (Careful q (.putBlock buf) → (q.putBlock buf).2.Kept) := by
  rw [Careful]
  rcases h.pointers with hn | hq
  · have hc := hn.capacity_eq
    rcases hn.putBlock buf with ⟨hcount, hnil⟩
    constructor
    · constructor
      · intro hk
        have ha := (hk _ rfl).2
        rw [accepted, hcount] at ha
        left
        omega
      · intro hle q' hs
        have hb : buf = [] := List.eq_nil_of_length_eq_zero (by omega)
        subst hb
        cases hs
        rw [hnil, accepted, hcount]
        exact ⟨h.not_stray, Nat.zero_le _⟩
    · intro hle
      have hb : buf = [] := List.eq_nil_of_length_eq_zero (by omega)
      subst hb
      rw [hnil]
      exact h
  · have hc := hq.capacity_pos
    have hcount : (q.putBlock buf).1 = min buf.length q.remaining := by
      unfold RawCircQueue.putBlock
      dsimp only
      split <;> rfl
    have hiff : min buf.length q.remaining ≤ q.capacity ↔
        buf.length ≤ q.capacity ∨ q.capacity ≠ 0 ∧ -1 ≤ q.sizeInt := by
      rw [← hq.remaining_le_iff]
      omega
    rw [← hiff]
    refine ⟨⟨fun hk ↦ ?_, fun hle q' hs ↦ ?_⟩, fun hle ↦ h.putBlock hq hle⟩
    · have ha := (hk _ rfl).2
      rwa [accepted, hcount] at ha
    · cases hs
      rw [accepted, hcount]
      exact ⟨(h.putBlock hq hle).not_stray, hle⟩

theorem Kept.keeps_getBlock {q : RawCircQueue T} (h : q.Kept) (n : Nat) :
    Keeps q (.getBlock n) ↔ Careful q (.getBlock n) := by
  have hk : Keeps q (.getBlock n) ↔ (q.getBlock n).2.2.stray = false := by
    constructor
    · intro hk
      exact (hk _ rfl).1
    · rintro hs q' ⟨⟩
      exact ⟨hs, Nat.zero_le _⟩
  rw [hk, (h.getBlock n).1, Careful]
  by_cases he : q.empty = true
  · exact iff_of_true (.inl he) (.inl he)
  · have hq : q.Held := h.pointers.resolve_left fun hn ↦ he hn.empty_eq
    have hc := hq.cap_lt
    have hcap := hq.capacity_eq
    have hb := hq.base_le_get
    have hs := hq.size_le_iff (Nat.le_add_right q.capacity (q.stop - q.get)) (by omega)
    rw [← hs, or_iff_right he, or_iff_right he]
    omega

/-- While all was inside so far, a call keeps to that exactly if it is careful. -/
theorem keeps_iff {q : RawCircQueue T} (h : q.Kept) (op : Op T) : Keeps q op ↔ Careful q op := by
  have hplaced : ∀ {op : Op T}, Careful q op → accepted q op = 0 →
      (∀ q', step q op = some q' → q'.Kept) → (Keeps q op ↔ Careful q op) := by
    intro op hc ha hk
    refine iff_of_true (fun q' hs ↦ ⟨(hk q' hs).not_stray, ?_⟩) hc
    rw [ha]
    exact Nat.zero_le _
  have hget : ∀ {op : Op T}, step q op = some q.getTo.2 → accepted q op = 0 →
      (Keeps q op ↔ q.empty = true ∨ q.get ≠ q.stop) := by
    intro op hs ha
    rw [← h.getTo.1]
    constructor
    · intro hk
      exact (hk _ hs).1
    · intro hst q' hs'
      rw [hs] at hs'
      cases hs'
      rw [ha]
      exact ⟨hst, Nat.zero_le _⟩
  cases op with
  | set buf cap own =>
    apply hplaced (show Careful q (.set buf cap own) from trivial) rfl
    intro q' hs
    simp only [step, Option.ite_none_right_eq_some, Option.some.injEq] at hs
    rcases hs with ⟨hp, rfl⟩
    exact kept_set h.not_stray own hp
  | resize buf cap =>
    apply hplaced (show Careful q (.resize buf cap) from trivial) rfl
    intro q' hs
    simp only [step, Option.ite_none_right_eq_some, Option.some.injEq] at hs
    rcases hs with ⟨hp, rfl⟩
    exact kept_resize h.not_stray hp
  | destroy =>
    apply hplaced (show Careful q .destroy from trivial) rfl
    rintro q' ⟨⟩
    exact kept_destroy h.not_stray
  | put v => exact h.keeps_put v
  | putBlock buf => exact (h.keeps_putBlock buf).1
  | get => exact hget (by rw [step, get1_eq]) rfl
  | getTo => exact hget rfl rfl
  | getBlock n => exact h.keeps_getBlock n

/-- A careful call leaves the pointers where they should be. -/
theorem kept_step {q q' : RawCircQueue T} {op : Op T} (h : q.Kept) (hc : Careful q op)
    (hs : step q op = some q') : q'.Kept := by
  have hst := ((keeps_iff h op).mpr hc q' hs).1
  cases op with
  | set buf cap own =>
    simp only [step, Option.ite_none_right_eq_some, Option.some.injEq] at hs
    rcases hs with ⟨hp, rfl⟩
    exact kept_set h.not_stray own hp
  | resize buf cap =>
    simp only [step, Option.ite_none_right_eq_some, Option.some.injEq] at hs
    rcases hs with ⟨hp, rfl⟩
    exact kept_resize h.not_stray hp
  | destroy =>
    cases hs
    exact kept_destroy h.not_stray
  | put v =>
    cases hs
    exact h.put1 (h.capacity_ne_iff.mp hc) v
  | putBlock buf =>
    cases hs
    exact (h.keeps_putBlock buf).2 hc
  | get =>
    cases hs
    rw [get1_eq] at hst ⊢
    exact h.getTo.2 hst
  | getTo =>
    cases hs
    exact h.getTo.2 hst
  | getBlock n =>
    cases hs
    exact (h.getBlock n).2 hst

/-- From every constructor, the calls of a sequence stay inside the memory and accept no more than
it has cells exactly if each of them is careful. -/
theorem rawCircQueue_keeps_iff {q : RawCircQueue T} (hq : Constructed q) (ops : List (Op T)) :
    (machine T).Along Keeps q ops ↔ (machine T).Along Careful q ops :=
  Machine.along_congr (I := Kept) (fun _ op hi ↦ keeps_iff hi op)
    (fun _ _ _ hi hc hs ↦ kept_step hi hc hs) (kept_of_constructed hq) ops

omit [Zero T] in
/-- In a queue with memory that has at most `2 ^ 31` cells, and whose get pointer is not at the
end, every call is careful. -/
theorem Held.careful {q : RawCircQueue T} (h : q.Held) (hc : q.capacity ≤ 2 ^ 31)
    (hg : q.get ≠ q.stop) (op : Op T) : Careful q op := by
  have h0 := h.sizeInt_nonneg hc
  have hpos := Nat.ne_of_gt h.capacity_pos
  cases op with
  | put v => exact hpos
  | putBlock buf => exact .inr ⟨hpos, by omega⟩
  | get => exact .inr hg
  | getTo => exact .inr hg
  | getBlock n => exact .inr (.inr h0)
  | _ => trivial

/-- A queue of four cells around which the items have gone. -/
theorem rawCircQueue_keeps_iff_four :
    let q : RawCircQueue Nat := ⟨0, 0, 0, 0, false, fun _ ↦ 0, false⟩
    let ops : List (Op Nat) :=
      [.putBlock [5, 7, 9, 11], .getBlock 2, .putBlock [13, 15], .getTo, .destroy, .get]
    (machine Nat).Along Keeps (q.shell.set 16 4 false) ops ↔
      (machine Nat).Along Careful (q.shell.set 16 4 false) ops :=
  rawCircQueue_keeps_iff (.array ⟨0, 0, 0, 0, false, fun _ ↦ 0, false⟩ 16 4 false (by decide)) _

/-- A queue that was given no memory takes an item all the same. -/
theorem rawCircQueue_not_keeps : ¬∀ (q : RawCircQueue Nat) (ops : List (Op Nat)),
    Constructed q → (machine Nat).Along Keeps q ops := by
  intro h
  have hk := h _ [.put 5] (.default ⟨0, 0, 0, 0, false, fun _ ↦ 0, false⟩)
  exact absurd (hk.1 _ rfl).2 (by decide)

end RawCircQueue
end CtrlrFx.Data
