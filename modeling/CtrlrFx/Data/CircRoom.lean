import CtrlrFx.Data.CircQueue
import CtrlrFx.Data.RawCircQueue

/-!
# The room of a circular queue

What `capacity()`, `size()`, `remaining()` and `full()` of `CtrlrFx/CircQueue.h` say of one another,
and how many items a queue takes. With both pointers in its memory a queue is that of
`Data.CircQueue`, where one cell always stays free.
-/

namespace CtrlrFx.Data
open Base

namespace RawCircQueue

variable {T : Type}

/-- How many of the items single puts accept until one fails. -/
def accepts (q : RawCircQueue T) : List T → Nat
  | [] => 0
  | v :: vs =>
    match q.put1 v with
    | (false, _) => 0
    | (true, q') => q'.accepts vs + 1

/-- Of one item more than there is room for, all but the last one are accepted. -/
def Room (q : RawCircQueue T) : Prop :=
  ∀ vs : List T, vs.length = q.capacity - q.size + 1 → q.accepts vs = q.capacity - q.size

/-- The queue is full when its size is its capacity. -/
def FullAtCapacity (q : RawCircQueue T) : Prop := q.full = true ↔ q.size = q.capacity

/-- The queue holds as many items as its capacity says;
`UnitTests/data/CircQueueTest/CircQueueTest.cpp:58–107`. -/
structure Stated (q : RawCircQueue T) : Prop where
  sum : q.size + q.remaining = q.capacity
  full : q.FullAtCapacity
  room : q.Room

/-- Whatever the pointers are, one slot is missing from the sum. -/
theorem size_add_remaining_ne (q : RawCircQueue T) : q.size + q.remaining ≠ q.capacity := by
  unfold remaining toSize
  omega

/-! ### The queue in its memory -/

/-- A queue with both pointers in its memory. -/
structure InRing (q : RawCircQueue T) : Prop extends q.Held where
  get_lt : q.get < q.stop

/-- The queue as the block that it keeps, with offsets in the place of pointers. -/
def toCircQueue (q : RawCircQueue T) : CircQueue T :=
  { mem := Window.cells q.mem q.base (q.stop - q.base)
    putPtr := q.put - q.base
    getPtr := q.get - q.base
    own := q.own }

namespace InRing

variable {q : RawCircQueue T}

theorem capacity_toCircQueue (h : q.InRing) : q.toCircQueue.capacity = q.capacity := by
  rw [CircQueue.capacity, toCircQueue, Window.length_cells, h.capacity_eq]

theorem wf (h : q.InRing) : q.toCircQueue.WF := by
  have hcap := h.capacity_toCircQueue.trans h.capacity_eq
  have hb := h.base_le_put
  have hp := h.put_lt
  have hg := h.base_le_get
  have hl := h.get_lt
  constructor
  · show q.put - q.base < q.toCircQueue.capacity
    omega
  · show q.get - q.base < q.toCircQueue.capacity
    omega

theorem size_toCircQueue (h : q.InRing) : q.toCircQueue.size = q.size := by
  have hb := h.base_le_put
  have hg := h.base_le_get
  have hd : ((q.toCircQueue.putPtr : Nat) : Int) - q.toCircQueue.getPtr = q.put - q.get := by
    show ((q.put - q.base : Nat) : Int) - (q.get - q.base : Nat) = q.put - q.get
    omega
  simp only [CircQueue.size, size, sizeInt, hd, h.capacity_toCircQueue]

/-- Both go around the end at the same place. -/
theorem next_toCircQueue (h : q.InRing) {p : Nat} (hb : q.base ≤ p) :
    q.toCircQueue.next (p - q.base) = q.next p - q.base := by
  have hbp := h.base_le_put
  have hp := h.put_lt
  have hcap := h.capacity_toCircQueue.trans h.capacity_eq
  unfold CircQueue.next Ring.next next
  split <;> split <;> omega

theorem full_toCircQueue (h : q.InRing) : q.toCircQueue.full = q.full := by
  have hn := h.next_toCircQueue h.base_le_put
  have hg := h.base_le_get
  have hnb := (h.next_mem h.base_le_put h.put_lt).1
  rw [CircQueue.full, full]
  show (q.toCircQueue.next (q.put - q.base) == q.get - q.base) = _
  rw [hn, Bool.eq_iff_iff, beq_iff_eq, beq_iff_eq]
  omega

/-- A single put on the queue is a single put on its block. -/
theorem put1 (h : q.InRing) (v : T) :
    (q.toCircQueue.put v).1 = (q.put1 v).1 ∧
      (q.toCircQueue.put v).2 = (q.put1 v).2.toCircQueue ∧ (q.put1 v).2.InRing := by
  rw [CircQueue.put, RawCircQueue.put1, h.full_toCircQueue]
  split
  · exact ⟨rfl, rfl, h⟩
  · have hn := h.next_mem h.base_le_put h.put_lt
    rw [store_of_mem h.base_le_put h.put_lt]
    refine ⟨rfl, ?_, ⟨⟨hn.1, hn.2, h.base_le_get, h.get_le, h.cap_lt⟩, h.get_lt⟩⟩
    simp only [toCircQueue, Window.cells_update _ _ h.base_le_put, CircQueue.mk.injEq, true_and,
      and_true]
    exact h.next_toCircQueue h.base_le_put

theorem accepts_eq (h : q.InRing) (vs : List T) : q.accepts vs = (q.toCircQueue.putEach vs).1 := by
  induction vs generalizing q with
  | nil => rfl
  | cons v vs ih =>
    rcases h.put1 v with ⟨h1, h2, hr⟩
    rw [accepts, CircQueue.putEach]
    rcases hq : q.put1 v with ⟨b, q'⟩
    rcases hc : q.toCircQueue.put v with ⟨b', c'⟩
    rw [hq, hc] at h1 h2
    rw [hq] at hr
    dsimp only at h1 h2
    subst h1 h2
    cases b'
    · rfl
    · exact congrArg (· + 1) (ih hr)

/-- As long as the size is exact, there is room for one item less than the capacity says. -/
theorem accepts_length (h : q.InRing) (hc : q.capacity ≤ 2 ^ 31) (vs : List T) :
    q.size < q.capacity ∧ q.accepts vs = min vs.length (q.capacity - 1 - q.size) := by
  have hw := h.wf
  have hcap := h.capacity_toCircQueue
  have hlen := CircQueue.len_lt hw
  have hsize := CircQueue.size_eq hw (by omega)
  rcases CircQueue.putEach_spec hw vs with ⟨q', hp, -⟩
  rw [h.accepts_eq, hp, ← h.size_toCircQueue, hsize, ← hcap]
  exact ⟨hlen, rfl⟩

theorem full_iff (h : q.InRing) (hc : q.capacity ≤ 2 ^ 31) :
    q.full = true ↔ q.size + 1 = q.capacity := by
  have hw := h.wf
  have hcap := h.capacity_toCircQueue
  rw [← h.full_toCircQueue, CircQueue.full_iff hw, ← h.size_toCircQueue,
    CircQueue.size_eq hw (by omega), hcap]

end InRing

variable [Zero T]

/-- The stated capacity is one more than what the queue holds, so that the sum is never right. In a
queue without memory, or whose size is exact, the room is never right either, and `full()` is so
only in a queue with memory that is not full. -/
theorem stated_never (q : RawCircQueue T) :
    ¬q.Stated ∧ q.size + q.remaining ≠ q.capacity ∧
      (q.Null ∨ q.InRing ∧ q.capacity ≤ 2 ^ 31 →
        ¬q.Room ∧ (q.FullAtCapacity ↔ q.capacity ≠ 0 ∧ q.full = false)) := by
  refine ⟨fun h ↦ q.size_add_remaining_ne h.sum, q.size_add_remaining_ne, ?_⟩
  rintro (hn | ⟨hr, hc⟩)
  · have hcap := hn.capacity_eq
    have hsize := hn.size_eq
    have hfull : q.full = false := by
      rw [full, next, hn.put_eq, hn.stop_eq, hn.get_eq]
      rfl
    constructor
    · intro hroom
      have h0 := hroom [0] (by rw [hcap, hsize]; rfl)
      rw [hcap, hsize, accepts, RawCircQueue.put1, hfull] at h0
      exact absurd h0 (by simp)
    · rw [FullAtCapacity, hfull, hcap, hsize]
      simp
  · have hlt := (hr.accepts_length hc []).1
    constructor
    · intro hroom
      have h0 := hroom (List.replicate (q.capacity - q.size + 1) 0) (List.length_replicate)
      rw [(hr.accepts_length hc _).2, List.length_replicate] at h0
      omega
    · rw [FullAtCapacity, hr.full_iff hc, ← Bool.not_eq_true, hr.full_iff hc]
      omega

/-- The queue of the unit tests, before anything is put. -/
theorem stated_never_four :
    let q : RawCircQueue Nat := ⟨16, 16, 16, 20, false, fun _ ↦ 0, false⟩
    ¬q.Stated ∧ q.size + q.remaining ≠ q.capacity ∧
      (¬q.Room ∧ (q.FullAtCapacity ↔ q.capacity ≠ 0 ∧ q.full = false)) := by
  intro q
  have hr : q.InRing := ⟨⟨by decide, by decide, by decide, by decide, by decide⟩, by decide⟩
  have h := stated_never q
  exact ⟨h.1, h.2.1, h.2.2 (.inr ⟨hr, by decide⟩)⟩

/-- Of four cells the queue has three free, before anything is put. -/
theorem not_stated_four : ¬∀ (q : RawCircQueue Nat) (buf cap : Nat) (own : Bool),
    Placed buf cap → (q.shell.set buf cap own).Stated := by
  intro h
  have hs := (h ⟨0, 0, 0, 0, false, fun _ ↦ 0, false⟩ 16 4 false (by decide)).sum
  exact absurd hs (by decide)

end RawCircQueue
end CtrlrFx.Data
