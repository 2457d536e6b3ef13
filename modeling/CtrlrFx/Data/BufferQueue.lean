import CtrlrFx.Base.Fifo
import CtrlrFx.Data.RawBuffer

/-!
# Buffers as queues

What `CtrlrFx/Buffer.h` says a buffer is for: items are put from the start on, the buffer is
flipped, and the items are got in the order in which they were put. In between `compact` moves
those that are left to the start, over the memory of those that are gone. A block is refused by
comparing `pos_ + n` with the limit, and that pointer may wrap around.
-/

namespace CtrlrFx.Data
open Base

namespace RawBuffer

variable {T : Type} [Item T]

/-- The items between the base and the position. -/
def written (b : RawBuffer T) : List T := (b.copyOut b.base b.position).1

/-- The items between the position and the limit. -/
def unread (b : RawBuffer T) : List T := (b.copyOut b.pos b.available).1

theorem Lays.written_eq {b : RawBuffer T} {v : Buffer T} (h : Lays b v) :
    b.written = v.written := by
  have hout := h.copyOut_eq (i := 0) (n := v.pos) (by rw [Nat.zero_add]; exact h.valid.pos_le)
  rw [Pointer.item_zero] at hout
  rw [written, h.position_eq, hout, Block.read, List.drop_zero, Buffer.written]

theorem Lays.unread_eq {b : RawBuffer T} {v : Buffer T} (h : Lays b v) :
    b.unread = v.unread := by
  have hp := h.valid.pos_le
  rw [unread, h.available_eq, h.pos_eq, h.copyOut_eq (by omega), Buffer.unread]

/-! ### Use -/

/-- A buffer in use, with the items that it has accepted and delivered since it was cleared. -/
structure Use (T : Type) where
  buf : RawBuffer T
  accepted : List T
  delivered : List T
  reading : Bool

namespace Use

/-- After `clear`, with no access noted yet. -/
def start (b : RawBuffer T) : Use T :=
  { buf := { b.clear with stray := false }, accepted := [], delivered := [], reading := false }

/-- One call: while it is written single puts if the buffer is not full, and block puts; then
`flip`; and while it is read single and block gets, and `compact`. -/
def step (s : Use T) : Op T → Option (Use T)
  | .put x =>
    if s.reading || s.buf.full then none
    else some { s with buf := s.buf.put x, accepted := s.accepted ++ [x] }
  | .putBlock xs =>
    if s.reading then none
    else some { s with
      buf := (s.buf.putBlock xs).2
      accepted := s.accepted ++ xs.take (s.buf.putBlock xs).1 }
  | .flip => if s.reading then none else some { s with buf := s.buf.flip, reading := true }
  | .getTo =>
    if s.reading then
      some { s with buf := s.buf.getTo.2, delivered := s.delivered ++ s.buf.getTo.1.toList }
    else none
  | .getBlock n =>
    if s.reading then
      some { s with
        buf := (s.buf.getBlock n).2.2
        delivered := s.delivered ++ (s.buf.getBlock n).2.1 }
    else none
  | .compact => if s.reading then some { s with buf := s.buf.compact } else none
  | _ => none

/-- What has been accepted and not been delivered, by the pointers. -/
def left (s : Use T) : List T := if s.reading then s.buf.unread else s.buf.written

end Use

/-- Buffers in use, on arrays of `cap` items. -/
def queue (T : Type) [Item T] (cap : Nat) : Machine (Use T) (Op T) where
  init s := ∃ b : RawBuffer T,
    b.stop = Pointer.item T b.base cap ∧ b.stop < 2 ^ 64 ∧ s = .start b
  step := Use.step

/-- All that was put and then got is a history of a queue, and what is left in it lies between the
pointers. -/
structure Serves (cap : Nat) (s : Use T) : Prop where
  history : Fifo.Run cap [] (s.accepted.map .enq ++ s.delivered.map .deq) s.left
  pre : s.delivered <+: s.accepted
  rest : s.accepted = s.delivered ++ s.left

/-- A call leaves a queue. A block that does not fit is not transferred, and nothing is got where
nothing is left. -/
structure Obeys (cap : Nat) (s : Use T) (op : Op T) (s' : Use T) : Prop where
  serves : Serves cap s'
  put_short : ∀ xs, op = .putBlock xs → cap < s.accepted.length + xs.length →
    s.buf.putBlock xs = (0, s.buf)
  get_short : ∀ n, op = .getBlock n → s.left.length < n → s.buf.getBlock n = (0, [], s.buf)
  get_empty : op = .getTo → s.left = [] → s.buf.getTo = (none, s.buf)

namespace Use

/-- Every call that is taken obeys. -/
def Keeps (cap : Nat) (s : Use T) (op : Op T) : Prop :=
  ∀ s', s.step op = some s' → Obeys cap s op s'

/-- No block is so long that the end of it wraps around. -/
def Careful (s : Use T) : Op T → Prop
  | .putBlock xs => s.reading = false → s.buf.NoWrap xs.length
  | .getBlock n => s.reading = true → s.buf.NoWrap n
  | _ => True

/-- The buffer is laid out, with what is left in the block. -/
structure Tracks (cap : Nat) (s : Use T) (v : Buffer T) : Prop where
  lays : Lays s.buf v
  capacity_eq : v.capacity = cap
  mark_eq : v.mark = 0
  lim_eq : s.reading = false → v.lim = cap ∧ s.delivered = []
  rest : s.accepted = s.delivered ++ if s.reading then v.unread else v.written
  length_le : s.accepted.length ≤ cap

namespace Tracks

variable {cap : Nat} {s s' : Use T} {v : Buffer T}

theorem left_eq (h : Tracks cap s v) : s.left = if s.reading then v.unread else v.written := by
  rw [left, h.lays.unread_eq, h.lays.written_eq]

/-- What is accepted fills the block up to the position. -/
theorem length_accepted (h : Tracks cap s v) (hr : s.reading = false) :
    s.accepted.length = v.pos := by
  have hrest := h.rest
  rw [(h.lim_eq hr).2, hr, if_neg Bool.false_ne_true, List.nil_append] at hrest
  rw [hrest, h.lays.valid.length_written]

theorem length_left (h : Tracks cap s v) (hr : s.reading = true) :
    s.left.length = v.lim - v.pos := by
  rw [h.left_eq, if_pos hr, h.lays.valid.length_unread]

theorem serves (h : Tracks cap s v) : Serves cap s := by
  have hrest : s.accepted = s.delivered ++ s.left := by
    rw [h.left_eq]
    exact h.rest
  refine ⟨.deqs _ ?_, ⟨s.left, hrest.symm⟩, hrest⟩
  rw [← hrest]
  exact Fifo.Run.of_length_le h.length_le

theorem put (h : Tracks cap s v) (hr : s.reading = false) (hf : v.full = false) (x : T) :
    Tracks cap { s with buf := s.buf.put x, accepted := s.accepted ++ [x] } (v.put x) := by
  have hlt := h.lays.valid.pos_lt hf
  have hlen := h.length_accepted hr
  have hlim := (h.lim_eq hr).1
  refine ⟨h.lays.put x hlt, ?_, h.mark_eq, fun _ ↦ h.lim_eq hr, ?_, ?_⟩
  · rw [Buffer.capacity_put, h.capacity_eq]
  · have hrest := h.rest
    simp only [hr, Bool.false_eq_true, if_false] at hrest ⊢
    rw [Buffer.written_put h.lays.valid x hf, hrest, List.append_assoc]
  · rw [List.length_append, List.length_singleton]
    omega

/-- A block is put whole, or not at all. -/
theorem putBlock (h : Tracks cap s v) (hr : s.reading = false) {xs : List T}
    (hc : s.buf.NoWrap xs.length) :
    Tracks cap { s with
      buf := (s.buf.putBlock xs).2
      accepted := s.accepted ++ xs.take (s.buf.putBlock xs).1 } (v.putBlock xs).2 := by
  have hlen := h.length_accepted hr
  have hlim := (h.lim_eq hr).1
  have hrest := h.rest
  rcases h.lays.putBlock xs hc with ⟨hcount, hput⟩
  by_cases hle : v.pos + xs.length ≤ v.lim
  · rw [hcount, Buffer.putBlock_of_le hle, List.take_length]
    rw [Buffer.putBlock_of_le hle] at hput
    have hcap := Buffer.capacity_putBlock v xs
    have hwritten := Buffer.written_putBlock h.lays.valid hle
    rw [Buffer.putBlock_of_le hle] at hcap hwritten
    refine ⟨hput, hcap.trans h.capacity_eq, h.mark_eq, fun _ ↦ h.lim_eq hr, ?_, ?_⟩
    · simp only [hr, Bool.false_eq_true, if_false] at hrest ⊢
      rw [hwritten, hrest, List.append_assoc]
    · rw [List.length_append]
      omega
  · have hlt := Nat.lt_of_not_le hle
    rw [h.lays.putBlock_short hc hlt, Buffer.putBlock_of_lt hlt, List.take_zero, List.append_nil]
    exact h

theorem flip (h : Tracks cap s v) (hr : s.reading = false) :
    Tracks cap { s with buf := s.buf.flip, reading := true } v.flip := by
  have hrest := h.rest
  rw [hr, if_neg Bool.false_ne_true] at hrest
  exact ⟨h.lays.flip, h.capacity_eq, rfl, nofun, hrest, h.length_le⟩

/-- What is got was in front of what is left. -/
theorem got {b' : RawBuffer T} {v' : Buffer T} {xs : List T} (h : Tracks cap s v)
    (hr : s.reading = true) (hb : Lays b' v') (hm : v'.mark = v.mark)
    (hcap : v'.capacity = v.capacity) (hu : v.unread = xs ++ v'.unread) :
    Tracks cap { s with buf := b', delivered := s.delivered ++ xs } v' := by
  have hrest := h.rest
  rw [hr, if_pos rfl, hu, ← List.append_assoc] at hrest
  refine ⟨hb, hcap.trans h.capacity_eq, hm.trans h.mark_eq, ?_, ?_, h.length_le⟩
  · intro hr'
    rw [hr] at hr'
    cases hr'
  · rw [hrest, hr, if_pos rfl]

theorem getTo (h : Tracks cap s v) (hr : s.reading = true) :
    Tracks cap { s with buf := s.buf.getTo.2, delivered := s.delivered ++ s.buf.getTo.1.toList }
      v.getTo.2 := by
  rcases h.lays.getTo with ⟨hitem, hget⟩
  rw [hitem]
  refine h.got hr hget ?_ ?_ (Buffer.unread_getTo h.lays.valid)
  · rw [Buffer.getTo]
    split <;> rfl
  · rw [Buffer.getTo]
    split <;> rfl

theorem getBlock (h : Tracks cap s v) (hr : s.reading = true) {n : Nat} (hc : s.buf.NoWrap n) :
    Tracks cap { s with
      buf := (s.buf.getBlock n).2.2
      delivered := s.delivered ++ (s.buf.getBlock n).2.1 } (v.getBlock n).2.2 := by
  rcases h.lays.getBlock hc with ⟨-, hitems, hget⟩
  rw [hitems]
  refine h.got hr hget ?_ (Buffer.capacity_getBlock v n) (Buffer.unread_getBlock v n)
  rw [Buffer.getBlock]
  split <;> rfl

theorem compact (h : Tracks cap s v) (hr : s.reading = true) :
    Tracks cap { s with buf := s.buf.compact } v.compact := by
  have hlays := h.lays.compact (by rw [h.mark_eq]; exact Nat.zero_le _)
  have hu : v.unread = [] ++ v.compact.unread := (Buffer.unread_compact h.lays.valid).symm
  have hgot := h.got hr hlays rfl (Buffer.capacity_compact h.lays.valid) hu
  rwa [List.append_nil] at hgot

/-- A careful call tracks the block, and obeys. -/
theorem step {op : Op T} (h : Tracks cap s v) (hc : Careful s op) (hs : s.step op = some s') :
    (∃ v', Tracks cap s' v') ∧ Obeys cap s op s' := by
  cases op with
  | put x =>
    rw [Use.step, Option.ite_none_left_eq_some, Bool.or_eq_true, not_or, Option.some.injEq] at hs
    rcases hs with ⟨⟨hr, hf⟩, rfl⟩
    have hfull : v.full = false := by
      rw [Bool.eq_false_iff, Ne, Buffer.full_iff, eq_comm, ← h.lays.pos_eq_lim, eq_comm]
      exact fun he ↦ hf (beq_iff_eq.mpr he)
    have ht := h.put (Bool.eq_false_iff.mpr hr) hfull x
    exact ⟨⟨_, ht⟩, ht.serves, nofun, nofun, nofun⟩
  | putBlock xs =>
    rw [Use.step, Option.ite_none_left_eq_some, Option.some.injEq] at hs
    rcases hs with ⟨hr, rfl⟩
    have hr' := Bool.eq_false_iff.mpr hr
    have ht := h.putBlock hr' (hc hr')
    refine ⟨⟨_, ht⟩, ht.serves, ?_, nofun, nofun⟩
    rintro _ ⟨⟩ hlt
    rw [h.length_accepted hr', ← (h.lim_eq hr').1] at hlt
    exact h.lays.putBlock_short (hc hr') hlt
  | flip =>
    rw [Use.step, Option.ite_none_left_eq_some, Option.some.injEq] at hs
    rcases hs with ⟨hr, rfl⟩
    have ht := h.flip (Bool.eq_false_iff.mpr hr)
    exact ⟨⟨_, ht⟩, ht.serves, nofun, nofun, nofun⟩
  | getTo =>
    rw [Use.step, Option.ite_none_right_eq_some, Option.some.injEq] at hs
    rcases hs with ⟨hr, rfl⟩
    have ht := h.getTo hr
    refine ⟨⟨_, ht⟩, ht.serves, nofun, nofun, ?_⟩
    intro _ he
    have hlen := h.length_left hr
    rw [he, List.length_nil] at hlen
    have hp := h.lays.valid.pos_le
    exact if_pos (h.lays.pos_eq_lim.mpr (by omega))
  | getBlock n =>
    rw [Use.step, Option.ite_none_right_eq_some, Option.some.injEq] at hs
    rcases hs with ⟨hr, rfl⟩
    have ht := h.getBlock hr (hc hr)
    refine ⟨⟨_, ht⟩, ht.serves, nofun, ?_, nofun⟩
    rintro _ ⟨⟩ hlt
    rw [h.length_left hr] at hlt
    exact h.lays.getBlock_short (hc hr) (by omega)
  | compact =>
    rw [Use.step, Option.ite_none_right_eq_some, Option.some.injEq] at hs
    rcases hs with ⟨hr, rfl⟩
    have ht := h.compact hr
    exact ⟨⟨_, ht⟩, ht.serves, nofun, nofun, nofun⟩
  | _ => cases hs

end Tracks

end Use

end RawBuffer
end CtrlrFx.Data
