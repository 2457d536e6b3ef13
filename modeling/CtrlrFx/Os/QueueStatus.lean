import CtrlrFx.Os.MsgQueue

/-!
# What a message queue says about itself

`CtrlrFx/MsgQueue.h`: the predicates are computed from the number of items, while the semaphores
decide whether `tryput` and `tryget` succeed. The comment on both predicates says that they tell
whether the queue is full; `full` compares the size with zero and `empty` the free slots.
-/

namespace CtrlrFx.Os
open Base

namespace MsgQueue

variable {T : Type}

/-- `CtrlrFx/MsgQueue.h:340–346`, and `available` at 348–354. -/
def size (q : MsgQueue T) : Nat := q.sz

/-- `capacity() - sz_` on two `size_t`; `CtrlrFx/MsgQueue.h:356–362`. -/
def remaining (q : MsgQueue T) : Nat :=
  if q.sz ≤ q.capacity then q.capacity - q.sz else 2 ^ 64 + q.capacity - q.sz

/-- `CtrlrFx/MsgQueue.h:129`. -/
def full (q : MsgQueue T) : Bool := q.size == 0

/-- `CtrlrFx/MsgQueue.h:132`. -/
def empty (q : MsgQueue T) : Bool := q.remaining == 0

theorem full_iff {q : MsgQueue T} : q.full = true ↔ q.sz = 0 := beq_iff_eq

theorem WF.empty_iff {q : MsgQueue T} (h : q.WF) : q.empty = true ↔ q.sz = q.capacity := by
  have hs := h.sz_le
  rw [empty, remaining, if_pos hs, beq_iff_eq]
  omega

variable {Tid : Type}

/-- No operation is in progress. -/
def Sys.Idle (s : Sys T Tid) : Prop := ∀ t, s.pc t = .idle

/-- With no token in flight the semaphores count the free and the used slots. -/
theorem Inv.counts [Fintype Tid] {s : Sys T Tid} (h : Inv s) (hi : s.Idle) :
    s.q.sz + s.q.slotSem = s.q.capacity ∧ s.q.dataSem = s.q.sz := by
  have hpc : s.pc = fun _ ↦ .idle := funext hi
  have hs := h.slots
  have hd := h.datas
  rw [hpc, total_const_zero slotFlight _ rfl, Nat.add_zero] at hs
  rw [hpc, total_const_zero dataFlight _ rfl, Nat.add_zero] at hd
  exact ⟨hs, hd⟩

variable [DecidableEq Tid]

/-- An operation that does not wait, started by thread `t` now, returns `false`. -/
def Sys.Fails (s : Sys T Tid) (t : Tid) (op : Op T) : Prop :=
  ∃ s' s'', s.call t op = some s' ∧ s'.giveUp t = some s''

/-- An operation, started by thread `t` now, passes its semaphore. -/
def Sys.Passes (s : Sys T Tid) (t : Tid) (op : Op T) : Prop :=
  ∃ s' s'', s.call t op = some s' ∧ s'.go t = some s''

/-- A call that leads to a wait decides there. -/
theorem Sys.exists_call {s s' : Sys T Tid} {t : Tid} {op : Op T} (h : s.call t op = some s')
    (f : Sys T Tid → Option (Sys T Tid)) :
    (∃ a b, s.call t op = some a ∧ f a = some b) ↔ (f s').isSome := by
  rw [h, Option.isSome_iff_exists]
  constructor
  · rintro ⟨a, b, ha, hb⟩
    cases ha
    exact ⟨b, hb⟩
  · rintro ⟨b, hb⟩
    exact ⟨s', b, rfl, hb⟩

namespace Sys

variable {s : Sys T Tid} {t : Tid}

@[simp] theorem pc_moveTo (s : Sys T Tid) (t : Tid) (p : Pc T) : (s.moveTo t p).pc t = p :=
  Function.update_self ..

/-- The count of free slots decides a `tryput`. -/
theorem fails_put (h : s.pc t = .idle) (v : T) :
    s.Fails t (.put .attempt v) ↔ s.q.slotSem = 0 := by
  rw [Fails, exists_call (call_put _ v h), giveUp, pc_moveTo]
  by_cases hz : s.q.slotSem = 0 <;> simp [hz]

theorem passes_put (h : s.pc t = .idle) (v : T) :
    s.Passes t (.put .attempt v) ↔ s.q.slotSem ≠ 0 := by
  rw [Passes, exists_call (call_put _ v h), go, pc_moveTo]
  by_cases hz : s.q.slotSem = 0 <;> simp [hz]

/-- The count of stored values decides a `tryget`. -/
theorem fails_get (h : s.pc t = .idle) : s.Fails t (.get .attempt) ↔ s.q.dataSem = 0 := by
  rw [Fails, exists_call (call_get _ h), giveUp, pc_moveTo]
  by_cases hz : s.q.dataSem = 0 <;> simp [hz]

theorem passes_get (h : s.pc t = .idle) : s.Passes t (.get .attempt) ↔ s.q.dataSem ≠ 0 := by
  rw [Passes, exists_call (call_get _ h), go, pc_moveTo]
  by_cases hz : s.q.dataSem = 0 <;> simp [hz]

/-- The predicates of the queue, what becomes of an attempt, and the number of items agree. -/
structure Agrees (s : Sys T Tid) : Prop where
  full_iff : s.q.full = true ↔ s.q.size = s.q.capacity
  tryput_fails : ∀ t v, s.Fails t (.put .attempt v) ↔ s.q.size = s.q.capacity
  tryput_passes : ∀ t v, s.Passes t (.put .attempt v) ↔ s.q.size ≠ s.q.capacity
  empty_iff : s.q.empty = true ↔ s.q.size = 0
  tryget_fails : ∀ t, s.Fails t (.get .attempt) ↔ s.q.size = 0
  tryget_passes : ∀ t, s.Passes t (.get .attempt) ↔ s.q.size ≠ 0

end Sys

variable [Fintype Tid]

/-- In every state of every run in which no operation is in progress the predicates agree with the
attempts and with the size exactly if there are both items and free slots, or there is no memory:
of a queue that is empty they say that it is full, and of a full one that it is empty. -/
theorem status_agrees_iff {cap : Nat} {s : Sys T Tid} (h : (machine T Tid cap).Reachable s)
    (hi : s.Idle) : s.Agrees ↔ s.q.capacity = 0 ∨ 0 < s.q.sz ∧ s.q.sz < s.q.capacity := by
  have hinv := inv_of_reachable h
  have hle := hinv.wf.sz_le
  have hc := hinv.counts hi
  constructor
  · intro ha
    have hf : s.q.sz = 0 ↔ s.q.sz = s.q.capacity := full_iff.symm.trans ha.full_iff
    omega
  · intro hcond
    refine ⟨?_, ?_, ?_, ?_, ?_, ?_⟩
    · rw [full_iff, size]
      omega
    · intro t v
      rw [Sys.fails_put (hi t), size]
      omega
    · intro t v
      rw [Sys.passes_put (hi t), size]
      omega
    · rw [hinv.wf.empty_iff, size]
      omega
    · intro t
      rw [Sys.fails_get (hi t), size]
      omega
    · intro t
      rw [Sys.passes_get (hi t), size]
      omega

/-- One value in a queue of two cells. -/
theorem status_agrees_iff_two :
    ∃ s : Sys Nat (Fin 2),
      (machine Nat (Fin 2) 2).run (.start ⟨0, [], 0, 0, false, 0, 0⟩ [0, 0] true)
        [.call 0 (.put .attempt 7), .go 0, .go 0, .go 0] = some s ∧ s.Agrees := by
  obtain ⟨s, hs, hpc, hsz, hcap⟩ : ∃ s : Sys Nat (Fin 2),
      (machine Nat (Fin 2) 2).run (.start ⟨0, [], 0, 0, false, 0, 0⟩ [0, 0] true)
        [.call 0 (.put .attempt 7), .go 0, .go 0, .go 0] = some s ∧
      (∀ t, s.pc t = .idle) ∧ s.q.sz = 1 ∧ s.q.capacity = 2 :=
    ⟨_, rfl, by decide, rfl, rfl⟩
  refine ⟨s, hs, (status_agrees_iff (Machine.Reachable.run (.init ⟨_, [0, 0], true, rfl, rfl⟩) hs)
    hpc).mpr (.inr ?_)⟩
  omega

/-- A queue that was just given memory says that it is full. -/
theorem not_status_agrees : ¬∀ (cap : Nat) (s : Sys Nat (Fin 2)),
    (machine Nat (Fin 2) cap).Reachable s → s.Idle → s.Agrees := by
  intro h
  have ha := h 1 (.start ⟨0, [], 0, 0, false, 0, 0⟩ [0] true) (.init ⟨_, [0], true, rfl, rfl⟩)
    (fun _ ↦ rfl)
  exact absurd (ha.full_iff.mp rfl) (by decide)

end MsgQueue
end CtrlrFx.Os
