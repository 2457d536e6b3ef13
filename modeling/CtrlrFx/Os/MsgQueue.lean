import CtrlrFx.Base.Fifo
import CtrlrFx.Base.Machine

/-!
# Message queues

`CtrlrFx/MsgQueue.h`: a ring of values guarded by a lock, with one semaphore counting
empty slots and one counting stored values. The semaphores are ideal counters and what runs
under `lock_` is one step; between these steps the threads interleave freely.
-/

namespace CtrlrFx.Os
open Base

/-- Members of the queue; `CtrlrFx/MsgQueue.h:50–68`. The block from `buf_` to `end_` is
`buf`, the two pointers are offsets into it, and a queue without memory has no cells. -/
structure MsgQueue (T : Type) where
  sz : Nat
  buf : List T
  put : Nat
  get : Nat
  own : Bool
  slotSem : Nat
  dataSem : Nat
  deriving DecidableEq, Repr

namespace MsgQueue

variable {T : Type}

/-- Maximum number of items; `CtrlrFx/MsgQueue.h:119`. -/
def capacity (q : MsgQueue T) : Nat := q.buf.length

/-- Frees the memory and drains both semaphores; `CtrlrFx/MsgQueue.h:273–287`. -/
def destroy (_ : MsgQueue T) : MsgQueue T :=
  { sz := 0, buf := [], put := 0, get := 0, own := false, slotSem := 0, dataSem := 0 }

/-- Restarts the queue on the block `arr`, posting one slot a cell;
`CtrlrFx/MsgQueue.h:253–267`. -/
def setBuffer (q : MsgQueue T) (arr : List T) (own : Bool) : MsgQueue T :=
  if arr = [] then q.destroy
  else { q.destroy with buf := arr, own := own, slotSem := arr.length }

/-- Restarts the queue on newly allocated cells, whose contents are whatever `fresh`
holds; `CtrlrFx/MsgQueue.h:241–248`. -/
def resize (q : MsgQueue T) (fresh : List T) : MsgQueue T :=
  if fresh.length > 0 then q.setBuffer fresh true else q.destroy

/-- Position after `p`; `CtrlrFx/MsgQueue.h:292–298`. -/
def next (q : MsgQueue T) (p : Nat) : Nat := Ring.next q.buf.length p

/-- What `do_put` does while it holds the lock; `CtrlrFx/MsgQueue.h:307–311`. -/
def doPut (q : MsgQueue T) (v : T) : MsgQueue T :=
  { q with buf := q.buf.set q.put v, put := q.next q.put, sz := q.sz + 1 }

/-- `sz_--` on a `size_t`. -/
def decrSize (sz : Nat) : Nat := if sz = 0 then 2 ^ 64 - 1 else sz - 1

/-- What `do_get` does while it holds the lock, with the value it copies out;
`CtrlrFx/MsgQueue.h:324–328`. A read outside the block has no value. -/
def doGet (q : MsgQueue T) : Option (T × MsgQueue T) :=
  q.buf[q.get]?.map fun v ↦ (v, { q with get := q.next q.get, sz := decrSize q.sz })

/-- Unread values, oldest first. -/
def contents (q : MsgQueue T) : List T := Ring.contents q.buf q.get q.sz

/-- Pointers agree with the number of unread values, which fit the block. -/
structure WF (q : MsgQueue T) : Prop where
  put_eq : q.put = (q.get + q.sz) % q.capacity
  get_lt : 0 < q.capacity → q.get < q.capacity
  sz_le : q.sz ≤ q.capacity

theorem length_contents {q : MsgQueue T} (h : q.WF) : q.contents.length = q.sz :=
  Ring.length_contents _ h.sz_le

theorem wf_setBuffer (q : MsgQueue T) (arr : List T) (own : Bool) :
    (q.setBuffer arr own).WF := by
  unfold setBuffer
  split
  · exact ⟨rfl, fun h ↦ h, Nat.le_refl 0⟩
  · exact ⟨(Nat.zero_mod _).symm, fun h ↦ h, Nat.zero_le _⟩

@[simp] theorem contents_setBuffer (q : MsgQueue T) (arr : List T) (own : Bool) :
    (q.setBuffer arr own).contents = [] := by
  unfold setBuffer
  split <;> rfl

@[simp] theorem capacity_setBuffer (q : MsgQueue T) (arr : List T) (own : Bool) :
    (q.setBuffer arr own).capacity = arr.length := by
  unfold setBuffer
  split
  · next h => rw [h]; rfl
  · rfl

@[simp] theorem sz_setBuffer (q : MsgQueue T) (arr : List T) (own : Bool) :
    (q.setBuffer arr own).sz = 0 := by
  unfold setBuffer
  split <;> rfl

@[simp] theorem slotSem_setBuffer (q : MsgQueue T) (arr : List T) (own : Bool) :
    (q.setBuffer arr own).slotSem = arr.length := by
  unfold setBuffer
  split
  · next h => rw [h]; rfl
  · rfl

@[simp] theorem dataSem_setBuffer (q : MsgQueue T) (arr : List T) (own : Bool) :
    (q.setBuffer arr own).dataSem = 0 := by
  unfold setBuffer
  split <;> rfl

/-- Resizing is installing the new cells, or none of them. -/
theorem resize_eq (q : MsgQueue T) (fresh : List T) :
    q.resize fresh = q.setBuffer fresh true := by
  unfold resize
  split
  · rfl
  · next h =>
    have hf : fresh = [] := List.eq_nil_of_length_eq_zero (by omega)
    simp [setBuffer, hf]

@[simp] theorem contents_resize (q : MsgQueue T) (fresh : List T) :
    (q.resize fresh).contents = [] := by
  rw [resize_eq, contents_setBuffer]

@[simp] theorem capacity_resize (q : MsgQueue T) (fresh : List T) :
    (q.resize fresh).capacity = fresh.length := by
  rw [resize_eq, capacity_setBuffer]

/-- The new cells all have room. -/
theorem room_resize (q : MsgQueue T) {fresh : List T} {n : Nat} (h : fresh.length = n) :
    (q.resize fresh).contents.length + n ≤ (q.resize fresh).capacity := by
  rw [contents_resize, capacity_resize, h, List.length_nil, Nat.zero_add]

@[simp] theorem capacity_doPut (q : MsgQueue T) (v : T) : (q.doPut v).capacity = q.capacity := by
  simp [doPut, capacity]

theorem wf_doPut {q : MsgQueue T} (v : T) (h : q.WF) (hs : q.sz < q.capacity) :
    (q.doPut v).WF := by
  have hc : 0 < q.capacity := by omega
  refine ⟨?_, fun _ ↦ ?_, ?_⟩
  · rw [capacity_doPut]
    change Ring.next q.capacity q.put = (q.get + (q.sz + 1)) % q.capacity
    rw [h.put_eq, Ring.next_add_mod _ _ hc]
  · rw [capacity_doPut]
    exact h.get_lt hc
  · rw [capacity_doPut]
    exact hs

/-- A locked put into a queue with room appends its value and touches no unread one. -/
theorem contents_doPut {q : MsgQueue T} (v : T) (h : q.WF) (hs : q.sz < q.capacity) :
    (q.doPut v).contents = q.contents ++ [v] := by
  change Ring.contents (q.buf.set q.put v) q.get (q.sz + 1) = _
  rw [h.put_eq]
  exact Ring.contents_push v hs

/-- A locked get from a nonempty queue copies out the oldest unread value and removes it. -/
theorem doGet_spec {q : MsgQueue T} (h : q.WF) (hs : 0 < q.sz) :
    ∃ v q', q.doGet = some (v, q') ∧ q.contents = v :: q'.contents ∧ q'.WF ∧
      q'.capacity = q.capacity ∧ q'.sz = q.sz - 1 ∧ q'.buf = q.buf ∧
      q'.slotSem = q.slotSem ∧ q'.dataSem = q.dataSem := by
  have hc : 0 < q.capacity := Nat.lt_of_lt_of_le hs h.sz_le
  have hg : q.get < q.buf.length := h.get_lt hc
  have hd : decrSize q.sz = q.sz - 1 := if_neg (by omega)
  refine ⟨q.buf[q.get], { q with get := q.next q.get, sz := decrSize q.sz }, ?_, ?_, ?_, rfl,
    hd, rfl, rfl, rfl⟩
  · simp [doGet, List.getElem?_eq_getElem hg]
  · change Ring.contents q.buf q.get q.sz =
      q.buf[q.get] :: Ring.contents q.buf (Ring.next q.buf.length q.get) (decrSize q.sz)
    rw [hd]
    exact Ring.contents_pop hg hs h.sz_le
  · refine ⟨?_, fun _ ↦ Ring.next_lt hg, ?_⟩
    · change q.put = (Ring.next q.buf.length q.get + decrSize q.sz) % q.buf.length
      rw [hd, Ring.next_add_pred_mod hg hs]
      exact h.put_eq
    · have hl := h.sz_le
      change decrSize q.sz ≤ q.capacity
      omega

/-- The cell at the get pointer holds the oldest unread value. -/
theorem getElem?_get {q : MsgQueue T} (h : q.WF) (hs : 0 < q.sz) :
    q.buf[q.get]? = q.contents.head? := by
  have hg : q.get < q.buf.length := h.get_lt (Nat.lt_of_lt_of_le hs h.sz_le)
  rw [contents, Ring.contents_pop hg hs h.sz_le, List.head?_cons, List.getElem?_eq_getElem hg]

/-! ### Threads on one queue -/

/-- How an operation waits for its semaphore: `put`, the timed `put`, and `tryput`. -/
inductive Mode where
  | block
  | timed
  | attempt
  deriving DecidableEq, Repr

/-- Calls a thread may make; `CtrlrFx/MsgQueue.h:367–466`. -/
inductive Op (T : Type) where
  | put (m : Mode) (v : T)
  | get (m : Mode)
  | peek
  deriving DecidableEq, Repr

/-- Where a thread is between two atomic steps. -/
inductive Pc (T : Type) where
  | idle
  | putWait (m : Mode) (v : T)
  | putLocked (v : T)
  | putPost
  | getWait (m : Mode)
  | getLocked
  | getPost (v : T)
  | peekTest
  | peekLocked
  deriving DecidableEq, Repr

/-- The queue, its threads, and the locked operations performed since the queue was last
given its memory, oldest first. -/
structure Sys (T Tid : Type) where
  q : MsgQueue T
  pc : Tid → Pc T
  events : List (Fifo.Event T)

/-- A queue just given the block `arr`, with every thread outside it. -/
def Sys.start {Tid : Type} (q : MsgQueue T) (arr : List T) (own : Bool) : Sys T Tid :=
  { q := q.setBuffer arr own, pc := fun _ ↦ .idle, events := [] }

/-- Atomic steps: a thread makes a call, passes its next step, or gives up waiting; or,
when no operation is in progress, the queue gets new memory. -/
inductive Act (T Tid : Type) where
  | call (t : Tid) (op : Op T)
  | go (t : Tid)
  | giveUp (t : Tid)
  | resize (fresh : List T)
  | setBuffer (arr : List T) (own : Bool)

/-! ### Tokens in flight -/

/-- A slot token a thread carries: acquired for a put not yet stored, or freed by a get not
yet posted. -/
def slotFlight : Pc T → Nat
  | .putLocked _ | .getPost _ => 1
  | _ => 0

/-- A data token a thread carries: stored by a put not yet posted, or acquired for a get not
yet taken. -/
def dataFlight : Pc T → Nat
  | .putPost | .getLocked => 1
  | _ => 0

section Accounts

variable {Tid : Type} [Fintype Tid]

/-- Puts and gets between their two semaphore operations. -/
def inFlight (s : Sys T Tid) : Nat := total slotFlight s.pc + total dataFlight s.pc

/-- Every slot of the block is unread, free, or carried by one thread, every unread value has
a token or is carried by one thread, and the locked operations are a bounded queue history. -/
structure Inv (s : Sys T Tid) : Prop where
  wf : s.q.WF
  run : Fifo.Run s.q.capacity [] s.events s.q.contents
  slots : s.q.sz + s.q.slotSem + total slotFlight s.pc = s.q.capacity
  datas : s.q.dataSem + total dataFlight s.pc = s.q.sz

theorem inv_start (q : MsgQueue T) (arr : List T) (own : Bool) :
    Inv (Sys.start q arr own : Sys T Tid) := by
  have hs : total slotFlight (fun _ : Tid ↦ (Pc.idle : Pc T)) = 0 := total_const_zero _ _ rfl
  have hd : total dataFlight (fun _ : Tid ↦ (Pc.idle : Pc T)) = 0 := total_const_zero _ _ rfl
  refine ⟨wf_setBuffer _ _ _, ?_, ?_, ?_⟩
  · change Fifo.Run (q.setBuffer arr own).capacity [] [] (q.setBuffer arr own).contents
    rw [contents_setBuffer]
    exact .nil
  · change (q.setBuffer arr own).sz + (q.setBuffer arr own).slotSem +
      total slotFlight (fun _ : Tid ↦ (Pc.idle : Pc T)) = (q.setBuffer arr own).capacity
    simp [hs]
  · change (q.setBuffer arr own).dataSem + total dataFlight (fun _ : Tid ↦ (Pc.idle : Pc T)) =
      (q.setBuffer arr own).sz
    simp [hd]

/-- A thread about to store has a free slot under the lock. -/
theorem Inv.room {s : Sys T Tid} (h : Inv s) {t : Tid} {v : T} (hp : s.pc t = .putLocked v) :
    s.q.sz < s.q.capacity := by
  have hl := le_total slotFlight s.pc t
  rw [hp] at hl
  have h1 := h.slots
  change 1 ≤ _ at hl
  omega

/-- A thread about to take has an unread value under the lock. -/
theorem Inv.unread {s : Sys T Tid} (h : Inv s) {t : Tid} (hp : s.pc t = .getLocked) :
    0 < s.q.sz := by
  have hl := le_total dataFlight s.pc t
  rw [hp] at hl
  have h2 := h.datas
  change 1 ≤ _ at hl
  omega

end Accounts

variable {Tid : Type} [DecidableEq Tid]

namespace Sys

/-- Thread `t` moves to `p`. -/
def moveTo (s : Sys T Tid) (t : Tid) (p : Pc T) : Sys T Tid :=
  { s with pc := Function.update s.pc t p }

@[simp] theorem q_moveTo (s : Sys T Tid) (t : Tid) (p : Pc T) : (s.moveTo t p).q = s.q := rfl

@[simp] theorem events_moveTo (s : Sys T Tid) (t : Tid) (p : Pc T) :
    (s.moveTo t p).events = s.events := rfl

/-- The call `op` of an idle thread reaches its first step. -/
def call (s : Sys T Tid) (t : Tid) (op : Op T) : Option (Sys T Tid) :=
  match s.pc t, op with
  | .idle, .put m v => some (s.moveTo t (.putWait m v))
  | .idle, .get m => some (s.moveTo t (.getWait m))
  | .idle, .peek => some (s.moveTo t .peekTest)
  | _, _ => none

/-- The next step of thread `t` on the path of success; blocked at an empty semaphore. -/
def go (s : Sys T Tid) (t : Tid) : Option (Sys T Tid) :=
  match s.pc t with
  | .idle => none
  | .putWait _ v =>
    if s.q.slotSem = 0 then none
    else some ({ s with q := { s.q with slotSem := s.q.slotSem - 1 } }.moveTo t (.putLocked v))
  | .putLocked v =>
    some
      ({ s with q := s.q.doPut v, events := s.events ++ [Fifo.Event.enq v] }.moveTo t .putPost)
  | .putPost =>
    some ({ s with q := { s.q with dataSem := s.q.dataSem + 1 } }.moveTo t .idle)
  | .getWait _ =>
    if s.q.dataSem = 0 then none
    else some ({ s with q := { s.q with dataSem := s.q.dataSem - 1 } }.moveTo t .getLocked)
  | .getLocked =>
    s.q.doGet.map fun (v, q) ↦
      { s with q := q, events := s.events ++ [Fifo.Event.deq v] }.moveTo t (.getPost v)
  | .getPost _ =>
    some ({ s with q := { s.q with slotSem := s.q.slotSem + 1 } }.moveTo t .idle)
  -- `peek` tests the size without the lock and again under it
  | .peekTest => some (s.moveTo t (if s.q.sz ≠ 0 then .peekLocked else .idle))
  | .peekLocked =>
    if s.q.sz ≠ 0 then
      s.q.buf[s.q.get]?.map fun v ↦
        { s with events := s.events ++ [Fifo.Event.peek v] }.moveTo t .idle
    else some (s.moveTo t .idle)

/-- A timed wait runs out at any moment; `tryacquire` fails at a zero count. -/
def giveUp (s : Sys T Tid) (t : Tid) : Option (Sys T Tid) :=
  match s.pc t with
  | .putWait .timed _ | .getWait .timed => some (s.moveTo t .idle)
  | .putWait .attempt _ => if s.q.slotSem = 0 then some (s.moveTo t .idle) else none
  | .getWait .attempt => if s.q.dataSem = 0 then some (s.moveTo t .idle) else none
  | _ => none

/-- New memory, allowed while every thread is outside the queue. -/
def restart [Fintype Tid] (s : Sys T Tid) (q : MsgQueue T) : Option (Sys T Tid) :=
  if ∀ t, s.pc t matches .idle then some { s with q := q, events := [] } else none

/-- One atomic step. -/
def step [Fintype Tid] (s : Sys T Tid) : Act T Tid → Option (Sys T Tid)
  | .call t op => s.call t op
  | .go t => s.go t
  | .giveUp t => s.giveUp t
  | .resize fresh => s.restart (s.q.resize fresh)
  | .setBuffer arr own => s.restart (s.q.setBuffer arr own)

end Sys

/-- Queues constructed with `cap` cells, from a capacity or from an array, before any call;
`CtrlrFx/MsgQueue.h:216–226`. -/
def machine (T Tid : Type) [DecidableEq Tid] [Fintype Tid] (cap : Nat) :
    Machine (Sys T Tid) (Act T Tid) where
  init s := ∃ (q : MsgQueue T) (arr : List T) (own : Bool), arr.length = cap ∧
    s = .start q arr own
  step := Sys.step

theorem Sys.call_put {s : Sys T Tid} {t : Tid} (m : Mode) (v : T) (h : s.pc t = .idle) :
    s.call t (.put m v) = some (s.moveTo t (.putWait m v)) := by
  simp only [call, h]

theorem Sys.call_get {s : Sys T Tid} {t : Tid} (m : Mode) (h : s.pc t = .idle) :
    s.call t (.get m) = some (s.moveTo t (.getWait m)) := by
  simp only [call, h]

theorem Sys.go_putLocked {s : Sys T Tid} {t : Tid} {v : T} (hp : s.pc t = .putLocked v) :
    s.go t = some
      ({ s with q := s.q.doPut v, events := s.events ++ [Fifo.Event.enq v] }.moveTo t
        .putPost) := by
  simp only [Sys.go, hp]

theorem Sys.go_getLocked {s : Sys T Tid} {t : Tid} {v : T} {q : MsgQueue T}
    (hp : s.pc t = .getLocked) (hd : s.q.doGet = some (v, q)) :
    s.go t = some
      ({ s with q := q, events := s.events ++ [Fifo.Event.deq v] }.moveTo t (.getPost v)) := by
  simp only [Sys.go, hp, hd, Option.map_some]

theorem Sys.go_peekLocked {s : Sys T Tid} {t : Tid} {v : T} (hp : s.pc t = .peekLocked)
    (hn : s.q.sz ≠ 0) (hv : s.q.buf[s.q.get]? = some v) :
    s.go t = some ({ s with events := s.events ++ [Fifo.Event.peek v] }.moveTo t .idle) := by
  simp only [Sys.go, hp, hn, hv, ne_eq, not_false_eq_true, if_true, Option.map_some]

theorem Sys.go_peekLocked_empty {s : Sys T Tid} {t : Tid} (hp : s.pc t = .peekLocked)
    (hn : s.q.sz = 0) : s.go t = some (s.moveTo t .idle) := by
  simp only [Sys.go, hp, hn, ne_eq, not_true_eq_false, if_false]

/-- A call moves its thread and nothing else. -/
theorem Sys.call_eq {s s' : Sys T Tid} {t : Tid} {op : Op T} (h : s.call t op = some s') :
    s.pc t = .idle ∧ ∃ p, s' = s.moveTo t p ∧ slotFlight p = 0 ∧ dataFlight p = 0 := by
  unfold Sys.call at h
  split at h
  · next hp => exact ⟨hp, _, (Option.some.inj h).symm, rfl, rfl⟩
  · next hp => exact ⟨hp, _, (Option.some.inj h).symm, rfl, rfl⟩
  · next hp => exact ⟨hp, _, (Option.some.inj h).symm, rfl, rfl⟩
  · cases h

/-- Giving up moves the thread out and nothing else. -/
theorem Sys.giveUp_eq {s s' : Sys T Tid} {t : Tid} (h : s.giveUp t = some s') :
    s' = s.moveTo t .idle ∧ slotFlight (s.pc t) = 0 ∧ dataFlight (s.pc t) = 0 := by
  unfold Sys.giveUp at h
  split at h
  · next hp => exact ⟨(Option.some.inj h).symm, by rw [hp]; rfl, by rw [hp]; rfl⟩
  · next hp => exact ⟨(Option.some.inj h).symm, by rw [hp]; rfl, by rw [hp]; rfl⟩
  · next hp =>
    split at h
    · exact ⟨(Option.some.inj h).symm, by rw [hp]; rfl, by rw [hp]; rfl⟩
    · cases h
  · next hp =>
    split at h
    · exact ⟨(Option.some.inj h).symm, by rw [hp]; rfl, by rw [hp]; rfl⟩
    · cases h
  · cases h

variable [Fintype Tid]

/-- A thread that exchanges a token with a semaphore, or moves without one, keeps the
accounts. -/
theorem Inv.exchange {s : Sys T Tid} (h : Inv s) (t : Tid) (p : Pc T) (slot data : Nat)
    (hs : slot + slotFlight p = s.q.slotSem + slotFlight (s.pc t))
    (hd : data + dataFlight p = s.q.dataSem + dataFlight (s.pc t)) :
    Inv ({ s with q := { s.q with slotSem := slot, dataSem := data } }.moveTo t p) := by
  have hus := total_update slotFlight s.pc t p
  have hud := total_update dataFlight s.pc t p
  have h1 := h.slots
  have h2 := h.datas
  refine ⟨⟨h.wf.put_eq, h.wf.get_lt, h.wf.sz_le⟩, h.run, ?_, ?_⟩
  · change s.q.sz + slot + total slotFlight (Function.update s.pc t p) = s.q.capacity
    omega
  · change data + total dataFlight (Function.update s.pc t p) = s.q.sz
    omega

/-- A move that carries the same tokens before and after keeps the accounts. -/
theorem Inv.moveTo {s : Sys T Tid} (h : Inv s) (t : Tid) (p : Pc T)
    (hs : slotFlight p = slotFlight (s.pc t)) (hd : dataFlight p = dataFlight (s.pc t)) :
    Inv (s.moveTo t p) :=
  h.exchange t p s.q.slotSem s.q.dataSem (by rw [hs]) (by rw [hd])

/-- A locked put turns the slot token of its thread into a data token. -/
theorem Inv.doPut {s : Sys T Tid} {t : Tid} {v : T} (h : Inv s) (hp : s.pc t = .putLocked v) :
    Inv ({ s with q := s.q.doPut v, events := s.events ++ [Fifo.Event.enq v] }.moveTo t
      .putPost) := by
  have hr := h.room hp
  have hus := total_update slotFlight s.pc t .putPost
  have hud := total_update dataFlight s.pc t .putPost
  have h1 := h.slots
  have h2 := h.datas
  simp only [hp, slotFlight, dataFlight] at hus hud
  refine ⟨wf_doPut v h.wf hr, ?_, ?_, ?_⟩
  · change Fifo.Run (s.q.doPut v).capacity [] _ (s.q.doPut v).contents
    rw [capacity_doPut, contents_doPut v h.wf hr]
    exact h.run.snoc (.enq v (by rw [length_contents h.wf]; exact hr))
  · change s.q.sz + 1 + s.q.slotSem + total slotFlight (Function.update s.pc t _) =
      (s.q.doPut v).capacity
    rw [capacity_doPut]
    omega
  · change s.q.dataSem + total dataFlight (Function.update s.pc t _) = s.q.sz + 1
    omega

/-- A locked get turns the data token of its thread into a slot token. -/
theorem Inv.doGet {s : Sys T Tid} {t : Tid} {v : T} {q : MsgQueue T} (h : Inv s)
    (hp : s.pc t = .getLocked) (hd : s.q.doGet = some (v, q)) :
    Inv ({ s with q := q, events := s.events ++ [Fifo.Event.deq v] }.moveTo t (.getPost v)) := by
  obtain ⟨v', q', hd', hc, hw, hcap, hsz, -, hss, hds⟩ := doGet_spec h.wf (h.unread hp)
  rw [hd] at hd'
  cases hd'
  have hn := h.unread hp
  have hus := total_update slotFlight s.pc t (.getPost v)
  have hud := total_update dataFlight s.pc t (.getPost v)
  have h1 := h.slots
  have h2 := h.datas
  simp only [hp, slotFlight, dataFlight] at hus hud
  refine ⟨hw, ?_, ?_, ?_⟩
  · change Fifo.Run q.capacity [] (s.events ++ [.deq v]) q.contents
    have hr := h.run
    rw [hc] at hr
    rw [hcap]
    exact hr.snoc (.deq v)
  · change q.sz + q.slotSem + total slotFlight (Function.update s.pc t _) = q.capacity
    omega
  · change q.dataSem + total dataFlight (Function.update s.pc t _) = q.sz
    omega

theorem Inv.go {s s' : Sys T Tid} {t : Tid} (h : Inv s) (hg : s.go t = some s') : Inv s' := by
  unfold Sys.go at hg
  cases hp : s.pc t with
  | idle => simp [hp] at hg
  | putWait m v =>
    simp only [hp] at hg
    split at hg
    · cases hg
    · cases hg
      exact h.exchange t _ _ s.q.dataSem (by rw [hp]; simp only [slotFlight]; omega)
        (by rw [hp]; rfl)
  | putLocked v =>
    simp only [hp] at hg
    cases hg
    exact h.doPut hp
  | putPost =>
    simp only [hp] at hg
    cases hg
    exact h.exchange t _ s.q.slotSem _ (by rw [hp]; rfl) (by rw [hp]; rfl)
  | getWait m =>
    simp only [hp] at hg
    split at hg
    · cases hg
    · cases hg
      exact h.exchange t _ s.q.slotSem _ (by rw [hp]; rfl)
        (by rw [hp]; simp only [dataFlight]; omega)
  | getLocked =>
    simp only [hp] at hg
    obtain ⟨⟨v, q⟩, hd, rfl⟩ := Option.map_eq_some_iff.mp hg
    exact h.doGet hp hd
  | getPost v =>
    simp only [hp] at hg
    cases hg
    exact h.exchange t _ _ s.q.dataSem (by rw [hp]; rfl) (by rw [hp]; rfl)
  | peekTest =>
    simp only [hp] at hg
    cases hg
    apply h.moveTo
    · rw [hp]
      split <;> rfl
    · rw [hp]
      split <;> rfl
  | peekLocked =>
    simp only [hp] at hg
    have hi := h.moveTo t .idle (by rw [hp]; rfl) (by rw [hp]; rfl)
    split at hg
    · next hn =>
      obtain ⟨v, hv, rfl⟩ := Option.map_eq_some_iff.mp hg
      have hr := h.run
      rw [getElem?_get h.wf (by omega)] at hv
      obtain ⟨q, hq⟩ := List.head?_eq_some_iff.mp hv
      refine ⟨hi.wf, ?_, hi.slots, hi.datas⟩
      change Fifo.Run s.q.capacity [] (s.events ++ [.peek v]) s.q.contents
      rw [hq] at hr ⊢
      exact hr.snoc (.peek v)
    · cases hg
      exact hi

omit [DecidableEq Tid] in
theorem Inv.restart {s s' : Sys T Tid} (q : MsgQueue T) (arr : List T) (own : Bool)
    (h : s.restart (q.setBuffer arr own) = some s') : Inv s' := by
  unfold Sys.restart at h
  split at h
  · next hi =>
    cases h
    have hp : s.pc = fun _ ↦ .idle := by
      funext t
      have ht := hi t
      split at ht
      · next he => exact he
      · cases ht
    rw [hp]
    exact inv_start q arr own
  · cases h

theorem Inv.step {s s' : Sys T Tid} {a : Act T Tid} (h : Inv s) (hs : s.step a = some s') :
    Inv s' := by
  cases a with
  | call t op =>
    obtain ⟨hp, p, rfl, h1, h2⟩ := Sys.call_eq hs
    exact h.moveTo t p (by rw [hp, h1]; rfl) (by rw [hp, h2]; rfl)
  | go t => exact h.go hs
  | giveUp t =>
    obtain ⟨rfl, h1, h2⟩ := Sys.giveUp_eq hs
    exact h.moveTo t .idle (by rw [h1]; rfl) (by rw [h2]; rfl)
  | resize fresh =>
    change s.restart (s.q.resize fresh) = some s' at hs
    rw [resize_eq] at hs
    exact Inv.restart s.q fresh true hs
  | setBuffer arr own => exact Inv.restart s.q arr own hs

theorem inv_of_reachable {cap : Nat} {s : Sys T Tid} (h : (machine T Tid cap).Reachable s) :
    Inv s := by
  refine h.invariant (I := Inv) ?_ fun _ _ _ hi hs ↦ hi.step hs
  rintro _ ⟨q, arr, own, -, rfl⟩
  exact inv_start q arr own

/-- What the queue promises its threads in a state. -/
structure Linearizable (s : Sys T Tid) : Prop where
  /-- The locked operations form a history of a queue bounded by the capacity. -/
  history : Fifo.Run s.q.capacity [] s.events s.q.contents
  /-- What was put is what was got followed by what is unread. -/
  conserved : Fifo.inserted s.events = Fifo.removed s.events ++ s.q.contents
  size_eq : s.q.sz = s.q.contents.length
  size_le : s.q.sz ≤ s.q.capacity
  /-- Slot tokens, data tokens and operations in flight account for every slot. -/
  tokens : s.q.slotSem + s.q.dataSem + inFlight s = s.q.capacity
  /-- A put stores into a cell that holds no unread value, behind all unread ones. -/
  stores : ∀ t v, s.pc t = .putLocked v →
    (∀ i < s.q.sz, (s.q.get + i) % s.q.capacity ≠ s.q.put) ∧
      ∃ s', s.go t = some s' ∧ s'.q.contents = s.q.contents ++ [v]
  /-- A get takes the oldest unread value, and there is one. -/
  takes : ∀ t, s.pc t = .getLocked →
    ∃ v s', s.go t = some s' ∧ s'.pc t = .getPost v ∧ s.q.contents = v :: s'.q.contents
  /-- A timed or immediate operation that fails leaves the queue as it was. -/
  gives_up : ∀ t s', s.giveUp t = some s' → s'.q = s.q ∧ s'.events = s.events
  /-- `peek` sees the oldest unread value, if any, and changes nothing. -/
  peeks : ∀ t, s.pc t = .peekLocked →
    ∃ s', s.go t = some s' ∧ s'.q = s.q ∧
      s'.events = s.events ++ (s.q.contents.head?.map Fifo.Event.peek).toList

/-- The put pointer points at none of the unread cells while there is room. -/
theorem unread_ne_put {q : MsgQueue T} (h : q.WF) (hs : q.sz < q.capacity) (i : Nat)
    (hi : i < q.sz) : (q.get + i) % q.capacity ≠ q.put := by
  rw [h.put_eq]
  exact Ring.add_mod_ne hi (by omega)

theorem Inv.peeks {s : Sys T Tid} (h : Inv s) {t : Tid} (hp : s.pc t = .peekLocked) :
    ∃ s', s.go t = some s' ∧ s'.q = s.q ∧
      s'.events = s.events ++ (s.q.contents.head?.map Fifo.Event.peek).toList := by
  by_cases hn : s.q.sz = 0
  · have hc : s.q.contents = [] := by rw [contents, hn, Ring.contents_zero]
    exact ⟨_, Sys.go_peekLocked_empty hp hn, rfl, by simp [hc]⟩
  · have hg := getElem?_get h.wf (Nat.pos_of_ne_zero hn)
    have hl := length_contents h.wf
    cases hc : s.q.contents with
    | nil =>
      rw [hc, List.length_nil] at hl
      omega
    | cons v q =>
      rw [hc, List.head?_cons] at hg
      exact ⟨_, Sys.go_peekLocked hp hn hg, rfl, by simp⟩

/-- Under every interleaving of any number of threads, with memory exchanged only while the
queue is idle, the queue is a linearizable bounded FIFO. -/
theorem msgQueue_linearizable {cap : Nat} {s : Sys T Tid}
    (h : (machine T Tid cap).Reachable s) : Linearizable s := by
  have hi := inv_of_reachable h
  refine ⟨hi.run, ?_, (length_contents hi.wf).symm, hi.wf.sz_le, ?_, ?_, ?_, ?_, ?_⟩
  · simpa using hi.run.conserves
  · have h1 := hi.slots
    have h2 := hi.datas
    unfold inFlight
    omega
  · intro t v hp
    have hr := hi.room hp
    exact ⟨unread_ne_put hi.wf hr, _, Sys.go_putLocked hp, contents_doPut v hi.wf hr⟩
  · intro t hp
    obtain ⟨v, q', hd, hc, -⟩ := doGet_spec hi.wf (hi.unread hp)
    exact ⟨v, _, Sys.go_getLocked hp hd, by simp [Sys.moveTo], hc⟩
  · intro t s' hg
    obtain ⟨rfl, -⟩ := Sys.giveUp_eq hg
    exact ⟨rfl, rfl⟩
  · exact fun t hp ↦ hi.peeks hp

/-- A producer that has stored its value but not posted it, and a `tryget` that failed
meanwhile. -/
theorem msgQueue_linearizable_overlap :
    ∃ s : Sys Nat (Fin 2),
      (machine Nat (Fin 2) 1).run (.start ⟨0, [], 0, 0, false, 0, 0⟩ [0] true)
        [.call 0 (.put .block 7), .go 0, .go 0, .call 1 (.get .attempt), .giveUp 1] = some s ∧
      s.q.contents = [7] ∧ s.q.dataSem = 0 ∧ Linearizable s := by
  obtain ⟨s, hs, hc, hd⟩ : ∃ s : Sys Nat (Fin 2),
      (machine Nat (Fin 2) 1).run (.start ⟨0, [], 0, 0, false, 0, 0⟩ [0] true)
        [.call 0 (.put .block 7), .go 0, .go 0, .call 1 (.get .attempt), .giveUp 1] = some s ∧
      s.q.contents = [7] ∧ s.q.dataSem = 0 := ⟨_, rfl, rfl, rfl⟩
  exact ⟨s, hs, hc, hd, msgQueue_linearizable
    (Machine.Reachable.run (.init ⟨_, [0], true, rfl, rfl⟩) hs)⟩

end MsgQueue
end CtrlrFx.Os
