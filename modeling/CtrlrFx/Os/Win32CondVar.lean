import CtrlrFx.Base.Machine
import Mathlib.Data.Fintype.Fin

/-!
# Condition variables from two events

`src/os/Win32/ConditionVar.cpp` and `CtrlrFx/os/Win32/CtrlrFx/ConditionVar.h`. A wait counts itself
in while it holds the mutex, sleeps on both events at once, and counts itself out without the mutex.
Loads and stores of the count are steps of their own. A thread that waits, signals or broadcasts
holds the mutex.
-/

namespace CtrlrFx.Os.Win32CondVar
open Base

/-- A mutex, which its owner may enter again; `CtrlrFx/os/Win32/CtrlrFx/Mutex.h:17`. -/
structure CriticalSection (Tid : Type) where
  owner : Option Tid
  count : Nat
  deriving DecidableEq, Repr

namespace CriticalSection

variable {Tid : Type} [DecidableEq Tid]

/-- `CtrlrFx/os/Win32/CtrlrFx/Mutex.h:23`. -/
def lock (m : CriticalSection Tid) (t : Tid) : Option (CriticalSection Tid) :=
  if m.owner = none ∨ m.owner = some t then some { owner := some t, count := m.count + 1 } else none

/-- `CtrlrFx/os/Win32/CtrlrFx/Mutex.h:24`. -/
def unlock (m : CriticalSection Tid) : CriticalSection Tid :=
  { owner := if m.count = 1 then none else m.owner, count := m.count - 1 }

end CriticalSection

/-- The two events, the first of which goes before the other;
`CtrlrFx/os/Win32/CtrlrFx/ConditionVar.h:18`. -/
inductive Evt where
  | signal
  | broadcast
  deriving DecidableEq, Repr

/-- Members beside the mutex; `CtrlrFx/os/Win32/CtrlrFx/ConditionVar.h:20–22`. -/
structure ConditionVar where
  broadcastEvt : Bool
  signalEvt : Bool
  nthread : UInt32
  deriving DecidableEq, Repr

namespace ConditionVar

/-- `CtrlrFx/os/Win32/CtrlrFx/ConditionVar.h:48–54`. -/
def new : ConditionVar := { broadcastEvt := false, signalEvt := false, nthread := 0 }

/-- `SetEvent` of one of the events. -/
def set (c : ConditionVar) : Evt → ConditionVar
  | .signal => { c with signalEvt := true }
  | .broadcast => { c with broadcastEvt := true }

/-- What `WaitForMultipleObjects` returns with when it does not block. It clears the event of the
signals, which resets itself. -/
def take (c : ConditionVar) : Option (Evt × ConditionVar) :=
  if c.signalEvt then some (.signal, { c with signalEvt := false })
  else if c.broadcastEvt then some (.broadcast, c)
  else none

end ConditionVar

/-- Where a thread is. A wait loads and stores the count, releases the mutex, sleeps, loads and
stores the count again, tests for the last one out, resets the event of the broadcasts and gets the
mutex back with its result. A signal or a broadcast tests the count and sets its event. -/
inductive Pc where
  | idle
  | inc
  | incStore (n : UInt32)
  | release
  | waiting
  | dec (res : Evt)
  | decStore (res : Evt) (n : UInt32)
  | test (res : Evt)
  | reset
  | acquire (ok : Bool)
  | ask (e : Evt)
  | set (e : Evt)
  deriving DecidableEq, Repr

namespace Pc

/-- Where a thread is in a wait. -/
def InWait : Pc → Prop
  | .idle | .ask _ | .set _ => False
  | _ => True

/-- Where it has been woken and not yet counted out. -/
def Woken : Pc → Prop
  | .dec _ | .decStore _ _ => True
  | _ => False

/-- A thread counts from its increment to its decrement, or to where that is left out. -/
def weight : Pc → Nat
  | .release | .waiting | .dec _ | .decStore _ _ => 1
  | _ => 0

/-- Where it is about to reset the event of the broadcasts, if no one has come. -/
def Resets (p : Pc) : Prop := p = .test .broadcast ∨ p = .reset

instance : DecidablePred Resets := fun _ ↦ inferInstanceAs (Decidable (_ ∨ _))

end Pc

/-- The variable, its threads, and how often a signal or a broadcast has set an event. -/
structure Sys (Tid : Type) where
  pc : Tid → Pc
  mutex : CriticalSection Tid
  cv : ConditionVar
  sets : Nat

variable {Tid : Type}

/-- A variable just constructed. -/
def start : Sys Tid :=
  { pc := fun _ ↦ .idle, mutex := { owner := none, count := 0 }, cv := .new, sets := 0 }

/-- Calls of a thread. -/
inductive Op where
  | lock
  | trylock
  | unlock
  | wait
  | signal (e : Evt)
  deriving DecidableEq, Repr

/-- Steps: a call, the next step of one, or a sleeper's time is over. -/
inductive Act (Tid : Type) where
  | call (t : Tid) (op : Op)
  | go (t : Tid)
  | expire (t : Tid)

section Steps
variable [DecidableEq Tid]

namespace Sys

/-- Thread `t` goes on at `p`. -/
def move (s : Sys Tid) (t : Tid) (p : Pc) : Sys Tid := { s with pc := Function.update s.pc t p }

/-- A call starts, or is over at once. Only a thread that holds the mutex gives it back, waits,
signals or broadcasts; `CtrlrFx/os/Win32/CtrlrFx/ConditionVar.h:31–37`. -/
def call (s : Sys Tid) (t : Tid) : Op → Option (Sys Tid)
  | .lock =>
    if s.pc t = .idle then (s.mutex.lock t).map fun m ↦ { s with mutex := m } else none
  | .trylock =>
    if s.pc t = .idle then some { s with mutex := (s.mutex.lock t).getD s.mutex } else none
  | .unlock =>
    if s.pc t = .idle ∧ s.mutex.owner = some t then some { s with mutex := s.mutex.unlock }
    else none
  | .wait => if s.pc t = .idle ∧ s.mutex.owner = some t then some (s.move t .inc) else none
  | .signal e =>
    if s.pc t = .idle ∧ s.mutex.owner = some t then some (s.move t (.ask e)) else none

/-- The next step of a call; `src/os/Win32/ConditionVar.cpp:20–36` and
`CtrlrFx/os/Win32/CtrlrFx/ConditionVar.h:70–84`. -/
def go (s : Sys Tid) (t : Tid) : Option (Sys Tid) :=
  match s.pc t with
  | .idle => none
  | .inc => some (s.move t (.incStore s.cv.nthread))
  | .incStore n => some { s.move t .release with cv := { s.cv with nthread := n + 1 } }
  | .release => some { s.move t .waiting with mutex := s.mutex.unlock }
  | .waiting => s.cv.take.map fun r ↦ { s.move t (.dec r.1) with cv := r.2 }
  | .dec res => some (s.move t (.decStore res s.cv.nthread))
  | .decStore res n => some { s.move t (.test res) with cv := { s.cv with nthread := n - 1 } }
  | .test res =>
    some (s.move t (if res = .broadcast ∧ s.cv.nthread = 0 then .reset else .acquire true))
  | .reset => some { s.move t (.acquire true) with cv := { s.cv with broadcastEvt := false } }
  | .acquire _ => (s.mutex.lock t).map fun m ↦ { s.move t .idle with mutex := m }
  | .ask e => some (s.move t (if s.cv.nthread ≠ 0 then .set e else .idle))
  | .set e => some { s.move t .idle with cv := s.cv.set e, sets := s.sets + 1 }

/-- `WAIT_TIMEOUT`, with neither event set. -/
def expire (s : Sys Tid) (t : Tid) : Option (Sys Tid) :=
  if s.pc t = .waiting ∧ s.cv.take = none then some (s.move t (.acquire false)) else none

end Sys

/-- One step. -/
def step (s : Sys Tid) : Act Tid → Option (Sys Tid)
  | .call t op => s.call t op
  | .go t => s.go t
  | .expire t => s.expire t

/-- The variable and its threads as a machine. -/
def machine (Tid : Type) [DecidableEq Tid] : Machine (Sys Tid) (Act Tid) where
  init s := s = start
  step := step

/-- The steps of a call that go wrong are not taken: a count is stored while what was loaded is
still the count, and does not wrap around; the last one out leaves no signal behind, and a broadcast
only to be reset; and an event is set while there is someone to wake, or that of the broadcasts
while it is about to be reset. -/
def Sys.Safe (s : Sys Tid) : Pc → Prop
  | .incStore n => s.cv.nthread = n ∧ n + 1 ≠ 0
  | .decStore res n =>
    s.cv.nthread = n ∧ (n = 1 → s.cv.signalEvt = false ∧
      (s.cv.broadcastEvt = true → res = .broadcast ∨ ∃ u, (s.pc u).Resets))
  | .set e => s.cv.nthread ≠ 0 ∨ e = .broadcast ∧ ∃ u, (s.pc u).Resets
  | _ => True

/-- Neither are they, nor does a wait run out of time. -/
def Careful (s : Sys Tid) : Act Tid → Prop
  | .call _ _ => True
  | .go t => s.Safe (s.pc t)
  | .expire t => s.expire t = none

instance [Fintype Tid] (s : Sys Tid) : DecidablePred s.Safe
  | .incStore _ => inferInstanceAs (Decidable (_ ∧ _))
  | .decStore _ _ => inferInstanceAs (Decidable (_ ∧ (_ → _ ∧ (_ → _))))
  | .set _ => inferInstanceAs (Decidable (_ ∨ _))
  | .idle | .inc | .release | .waiting | .dec _ | .test _ | .reset | .acquire _ | .ask _ =>
    .isTrue trivial

instance [Fintype Tid] (s : Sys Tid) : DecidablePred (Careful s)
  | .call _ _ => .isTrue trivial
  | .go t => inferInstanceAs (Decidable (s.Safe (s.pc t)))
  | .expire t => inferInstanceAs (Decidable (s.expire t = none))

/-- A call leaves the places and the variable alone, or starts outside of what counts. -/
theorem call_cases {s s' : Sys Tid} {t : Tid} {op : Op} (hs : s.call t op = some s') :
    (s'.pc = s.pc ∧ s'.cv = s.cv ∧ s'.sets = s.sets) ∨
      s.pc t = .idle ∧ ∃ p, p.weight = 0 ∧ ¬p.Woken ∧ s' = s.move t p := by
  cases op with
  | lock =>
    simp only [Sys.call, Option.ite_none_right_eq_some, Option.map_eq_some_iff] at hs
    rcases hs with ⟨-, m, -, rfl⟩
    exact .inl ⟨rfl, rfl, rfl⟩
  | trylock | unlock =>
    simp only [Sys.call, Option.ite_none_right_eq_some, Option.some.injEq] at hs
    rcases hs with ⟨-, rfl⟩
    exact .inl ⟨rfl, rfl, rfl⟩
  | wait | signal =>
    simp only [Sys.call, Option.ite_none_right_eq_some, Option.some.injEq] at hs
    rcases hs with ⟨⟨hp, -⟩, rfl⟩
    exact .inr ⟨hp, _, rfl, id, rfl⟩

end Steps

/-! ### What the books say -/

section Books
variable [Fintype Tid]

/-- The threads that count. -/
def inside (s : Sys Tid) : Nat := total Pc.weight s.pc

/-- The count is right, and an event that is set has someone to wake or to reset it. -/
structure Books (s : Sys Tid) : Prop where
  count : s.cv.nthread.toNat = inside s
  signal : s.cv.signalEvt = true → s.cv.nthread ≠ 0
  broadcast : s.cv.broadcastEvt = true → s.cv.nthread ≠ 0 ∨ ∃ t, (s.pc t).Resets

theorem books_start : Books (start : Sys Tid) where
  count := (total_const_zero _ _ rfl).symm
  signal := by simp [start, ConditionVar.new]
  broadcast := by simp [start, ConditionVar.new]

variable [DecidableEq Tid]

/-- A step of thread `t` that takes it to `p`. -/
theorem Books.update {s s' : Sys Tid} {t : Tid} {p : Pc} (h : Books s)
    (hp : s'.pc = Function.update s.pc t p)
    (hc : s'.cv.nthread.toNat + (s.pc t).weight = s.cv.nthread.toNat + p.weight)
    (hs : s'.cv.signalEvt = true → s'.cv.nthread ≠ 0)
    (hb : s'.cv.broadcastEvt = true → s'.cv.nthread ≠ 0 ∨ p.Resets ∨
      (∃ u, (s.pc u).Resets) ∧ ¬(s.pc t).Resets) : Books s' where
  count := by
    have ht := total_update Pc.weight s.pc t p
    have hn := h.count
    unfold inside at hn ⊢
    rw [hp]
    omega
  signal := hs
  broadcast := by
    intro he
    rcases hb he with hn | hr | ⟨⟨u, hu⟩, ht⟩
    · exact .inl hn
    · refine .inr ⟨t, ?_⟩
      rw [hp, Function.update_self]
      exact hr
    · have hut : u ≠ t := by
        rintro rfl
        exact ht hu
      refine .inr ⟨u, ?_⟩
      rw [hp, Function.update_of_ne hut]
      exact hu

/-- A step that leaves the variable alone and does not come from a reset. -/
theorem Books.move {s : Sys Tid} {t : Tid} {p : Pc} (h : Books s)
    (hw : p.weight = (s.pc t).weight) (hr : ¬(s.pc t).Resets) : Books (s.move t p) := by
  apply h.update (t := t) (p := p) rfl
  · simp only [Sys.move, hw]
  · exact h.signal
  · intro hb
    rcases h.broadcast hb with hn | hu
    · exact .inl hn
    · exact .inr (.inr ⟨hu, hr⟩)

omit [DecidableEq Tid] in
theorem Books.congr {s s' : Sys Tid} (h : Books s) (hp : s'.pc = s.pc) (hc : s'.cv = s.cv) :
    Books s' where
  count := by
    unfold inside
    rw [hp, hc]
    exact h.count
  signal := by
    rw [hc]
    exact h.signal
  broadcast := by
    rw [hp, hc]
    exact h.broadcast

theorem Books.call {s s' : Sys Tid} {t : Tid} {op : Op} (h : Books s)
    (hs : s.call t op = some s') : Books s' := by
  rcases call_cases hs with ⟨hp, hc, -⟩ | ⟨hp, p, hw, -, rfl⟩
  · exact h.congr hp hc
  · exact h.move (by rw [hp, hw]; rfl) (by simp [hp, Pc.Resets])

/-- The increment, of a count that is still what was loaded. -/
theorem Books.increment {s : Sys Tid} {t : Tid} (h : Books s)
    (hp : s.pc t = .incStore s.cv.nthread) (hn : s.cv.nthread + 1 ≠ 0) :
    Books { s.move t .release with cv := { s.cv with nthread := s.cv.nthread + 1 } } := by
  apply h.update (t := t) (p := .release) rfl
  · have hlt : s.cv.nthread.toNat + 1 < 2 ^ 32 := by
      by_contra hge
      apply hn
      apply UInt32.toNat_inj.mp
      have := s.cv.nthread.toNat_lt
      rw [UInt32.toNat_add, UInt32.toNat_one, UInt32.toNat_zero]
      omega
    simp only [hp, Pc.weight, UInt32.toNat_add, UInt32.toNat_one]
    omega
  · intro _
    exact hn
  · intro _
    exact .inl hn

/-- The decrement, of a count that is still what was loaded. -/
theorem Books.decrement {s : Sys Tid} {t : Tid} {res : Evt} (h : Books s)
    (hp : s.pc t = .decStore res s.cv.nthread)
    (hlast : s.cv.nthread = 1 → s.cv.signalEvt = false ∧
      (s.cv.broadcastEvt = true → res = .broadcast ∨ ∃ u, (s.pc u).Resets)) :
    Books { s.move t (.test res) with cv := { s.cv with nthread := s.cv.nthread - 1 } } := by
  have hone : 1 ≤ s.cv.nthread.toNat := by
    have hle := le_total Pc.weight s.pc t
    rw [hp] at hle
    rw [h.count]
    exact hle
  have hsub : (s.cv.nthread - 1).toNat = s.cv.nthread.toNat - 1 :=
    UInt32.toNat_sub_of_le _ _ (UInt32.le_iff_toNat_le.mpr hone)
  have hzero : s.cv.nthread - 1 = 0 → s.cv.nthread = 1 := by
    intro hz
    apply UInt32.toNat_inj.mp
    rw [hz, UInt32.toNat_zero] at hsub
    rw [UInt32.toNat_one]
    omega
  apply h.update (t := t) (p := .test res) rfl
  · simp only [hp, Pc.weight, hsub]
    omega
  · intro hs hz
    exact absurd hs (by simp [(hlast (hzero hz)).1])
  · intro hb
    by_cases hz : s.cv.nthread - 1 = 0
    · rcases (hlast (hzero hz)).2 hb with rfl | hu
      · exact .inr (.inl (by simp [Pc.Resets]))
      · exact .inr (.inr ⟨hu, by simp [hp, Pc.Resets]⟩)
    · exact .inl hz

/-- A wait that returns takes a signal with it, or leaves the broadcast to others. -/
theorem Books.take {s : Sys Tid} {t : Tid} {res : Evt} {c : ConditionVar} (h : Books s)
    (hp : s.pc t = .waiting) (hc : s.cv.take = some (res, c)) :
    Books { s.move t (.dec res) with cv := c } := by
  have hcv : c.nthread = s.cv.nthread ∧ c.broadcastEvt = s.cv.broadcastEvt ∧
      (c.signalEvt = true → s.cv.signalEvt = true) := by
    unfold ConditionVar.take at hc
    split at hc
    · cases hc
      exact ⟨rfl, rfl, fun hf ↦ by cases hf⟩
    · split at hc
      · cases hc
        exact ⟨rfl, rfl, id⟩
      · cases hc
  rcases hcv with ⟨hn, hb, hs⟩
  apply h.update (t := t) (p := .dec res) rfl
  · simp only [hn, hp, Pc.weight]
  · intro he
    rw [hn]
    exact h.signal (hs he)
  · intro he
    rw [hb] at he
    rw [hn]
    rcases h.broadcast he with hn | hu
    · exact .inl hn
    · exact .inr (.inr ⟨hu, by simp [hp, Pc.Resets]⟩)

/-- The test for the last one out. Whoever leaves the event set leaves it to those that count. -/
theorem Books.test {s : Sys Tid} {t : Tid} {res : Evt} (h : Books s) (hp : s.pc t = .test res) :
    Books (s.move t (if res = .broadcast ∧ s.cv.nthread = 0 then .reset else .acquire true)) := by
  cases res with
  | signal => exact h.move (by simp [hp, Pc.weight]) (by simp [hp, Pc.Resets])
  | broadcast =>
    by_cases hz : s.cv.nthread = 0
    · rw [if_pos ⟨rfl, hz⟩]
      apply h.update (t := t) (p := .reset) rfl
      · simp [Sys.move, hp, Pc.weight]
      · exact h.signal
      · intro _
        exact .inr (.inl (by simp [Pc.Resets]))
    · rw [if_neg (fun hc ↦ hz hc.2)]
      apply h.update (t := t) (p := .acquire true) rfl
      · simp [Sys.move, hp, Pc.weight]
      · exact h.signal
      · intro _
        exact .inl hz

theorem Books.reset {s : Sys Tid} {t : Tid} (h : Books s) (hp : s.pc t = .reset) :
    Books { s.move t (.acquire true) with cv := { s.cv with broadcastEvt := false } } := by
  apply h.update (t := t) (p := .acquire true) rfl
  · simp [hp, Pc.weight]
  · exact h.signal
  · intro hb
    cases hb

theorem Books.set {s : Sys Tid} {t : Tid} {e : Evt} (h : Books s) (hp : s.pc t = .set e)
    (hn : s.cv.nthread ≠ 0 ∨ e = .broadcast ∧ ∃ u, (s.pc u).Resets) :
    Books { s.move t .idle with cv := s.cv.set e, sets := s.sets + 1 } := by
  have hc : (s.cv.set e).nthread = s.cv.nthread := by cases e <;> rfl
  apply h.update (t := t) (p := .idle) rfl
  · simp only [hc, hp, Pc.weight]
  · rw [hc]
    rcases hn with hn | ⟨rfl, -⟩
    · exact fun _ ↦ hn
    · exact h.signal
  · intro _
    rw [hc]
    rcases hn with hn | ⟨-, hu⟩
    · exact .inl hn
    · exact .inr (.inr ⟨hu, by simp [hp, Pc.Resets]⟩)

theorem Books.go {s s' : Sys Tid} {t : Tid} (h : Books s) (hc : Careful s (.go t))
    (hs : s.go t = some s') : Books s' := by
  unfold Sys.go at hs
  unfold Careful Sys.Safe at hc
  cases hp : s.pc t with
  | idle => simp only [hp, reduceCtorEq] at hs
  | inc | dec =>
    simp only [hp, Option.some.injEq] at hs
    subst hs
    exact h.move (by simp [hp, Pc.weight]) (by simp [hp, Pc.Resets])
  | incStore n =>
    simp only [hp, Option.some.injEq] at hs hc
    obtain ⟨rfl, hn⟩ := hc
    subst hs
    exact h.increment hp hn
  | release =>
    simp only [hp, Option.some.injEq] at hs
    subst hs
    exact (h.move (t := t) (p := .waiting) (by simp [hp, Pc.weight])
      (by simp [hp, Pc.Resets])).congr rfl rfl
  | waiting =>
    simp only [hp, Option.map_eq_some_iff] at hs
    rcases hs with ⟨⟨res, c⟩, hr, rfl⟩
    exact h.take hp hr
  | decStore res n =>
    simp only [hp, Option.some.injEq] at hs hc
    obtain ⟨rfl, hlast⟩ := hc
    subst hs
    exact h.decrement hp hlast
  | test res =>
    simp only [hp, Option.some.injEq] at hs
    subst hs
    exact h.test hp
  | reset =>
    simp only [hp, Option.some.injEq] at hs
    subst hs
    exact h.reset hp
  | acquire ok =>
    simp only [hp, Option.map_eq_some_iff] at hs
    rcases hs with ⟨m, -, rfl⟩
    exact (h.move (t := t) (p := .idle) (by simp [hp, Pc.weight])
      (by simp [hp, Pc.Resets])).congr rfl rfl
  | ask e =>
    simp only [hp, Option.some.injEq] at hs
    subst hs
    refine h.move ?_ (by simp [hp, Pc.Resets])
    split <;> simp [hp, Pc.weight]
  | set e =>
    simp only [hp, Option.some.injEq] at hs hc
    subst hs
    exact h.set hp hc

/-- What a step of thread `t` does to the number of threads inside. -/
theorem inside_update (s s' : Sys Tid) {t : Tid} {p : Pc}
    (hp : s'.pc = Function.update s.pc t p) :
    inside s' + (s.pc t).weight = inside s + p.weight := by
  unfold inside
  rw [hp]
  exact total_update Pc.weight s.pc t p

omit [Fintype Tid] in
/-- A thread about to reset the event, if it is not the one that has just moved. -/
theorem resets_of_update {f : Tid → Pc} {t : Tid} {p : Pc}
    (h : ∃ u, (Function.update f t p u).Resets) : p.Resets ∨ ∃ u, (f u).Resets := by
  rcases h with ⟨u, hu⟩
  by_cases hut : u = t
  · subst hut
    rw [Function.update_self] at hu
    exact .inl hu
  · rw [Function.update_of_ne hut] at hu
    exact .inr ⟨u, hu⟩

/-- An increment after which the books are right was one of the count. -/
theorem Books.safe_incStore {s : Sys Tid} {t : Tid} {n : UInt32} (h : Books s)
    (hp : s.pc t = .incStore n)
    (h' : Books { s.move t .release with cv := { s.cv with nthread := n + 1 } }) :
    s.cv.nthread = n ∧ n + 1 ≠ 0 := by
  have hi := inside_update s { s.move t .release with cv := { s.cv with nthread := n + 1 } }
    (t := t) (p := .release) rfl
  simp only [hp, Pc.weight, add_zero] at hi
  have hadd : (n + 1).toNat = s.cv.nthread.toNat + 1 := by
    rw [h.count, ← hi]
    exact h'.count
  constructor
  · apply UInt32.toNat_inj.mp
    have := n.toNat_lt
    have := s.cv.nthread.toNat_lt
    rw [UInt32.toNat_add, UInt32.toNat_one] at hadd
    omega
  · intro hz
    rw [hz, UInt32.toNat_zero] at hadd
    omega

theorem Books.safe_decStore {s : Sys Tid} {t : Tid} {res : Evt} {n : UInt32} (h : Books s)
    (hp : s.pc t = .decStore res n)
    (h' : Books { s.move t (.test res) with cv := { s.cv with nthread := n - 1 } }) :
    s.Safe (.decStore res n) := by
  have hi := inside_update s { s.move t (.test res) with cv := { s.cv with nthread := n - 1 } }
    (t := t) (p := .test res) rfl
  simp only [hp, Pc.weight, add_zero] at hi
  have hsub : (n - 1).toNat + 1 = s.cv.nthread.toNat := by
    rw [h.count, ← hi, ← h'.count]
  constructor
  · apply UInt32.toNat_inj.mp
    have := n.toNat_lt
    have := s.cv.nthread.toNat_lt
    rw [UInt32.toNat_sub, UInt32.toNat_one] at hsub
    omega
  · intro hn
    have hzero : n - 1 = 0 := by
      rw [hn]
      decide
    constructor
    · cases hsig : s.cv.signalEvt with
      | false => rfl
      | true => exact absurd hzero (h'.signal hsig)
    · intro hb
      rcases h'.broadcast hb with hz | hr
      · exact absurd hzero hz
      · rcases resets_of_update hr with hr | hr
        · simp only [Pc.Resets, Pc.test.injEq, reduceCtorEq, or_false] at hr
          exact .inl hr
        · exact .inr hr

theorem Books.safe_set {s : Sys Tid} {t : Tid} {e : Evt}
    (h' : Books { s.move t .idle with cv := s.cv.set e, sets := s.sets + 1 }) :
    s.Safe (.set e) := by
  by_cases hz : s.cv.nthread = 0
  · cases e with
    | signal => exact absurd hz (h'.signal rfl)
    | broadcast =>
      rcases h'.broadcast rfl with hn | hr
      · exact absurd hz hn
      · rcases resets_of_update hr with hr | hr
        · exact absurd hr (by simp [Pc.Resets])
        · exact .inr ⟨rfl, hr⟩
  · exact .inl hz

/-- A step that is not careful puts the books wrong at once. -/
theorem Books.careful {s s' : Sys Tid} {a : Act Tid} (h : Books s) (h' : Books s')
    (hs : step s a = some s') : Careful s a := by
  cases a with
  | call t op => trivial
  | go t =>
    change s.Safe (s.pc t)
    simp only [step, Sys.go] at hs
    cases hp : s.pc t with
    | incStore n =>
      simp only [hp, Option.some.injEq] at hs
      subst hs
      exact h.safe_incStore hp h'
    | decStore res n =>
      simp only [hp, Option.some.injEq] at hs
      subst hs
      exact h.safe_decStore hp h'
    | set e =>
      simp only [hp, Option.some.injEq] at hs
      subst hs
      exact h'.safe_set
    | idle | inc | release | waiting | dec | test | reset | acquire | ask => trivial
  | expire t =>
    simp only [step, Sys.expire, Option.ite_none_right_eq_some, Option.some.injEq] at hs
    rcases hs with ⟨⟨hp, -⟩, rfl⟩
    have hi := inside_update s (s.move t (.acquire false)) rfl
    simp only [hp, Pc.weight] at hi
    have hc : s.cv.nthread.toNat = inside (s.move t (.acquire false)) := h'.count
    have hn := h.count
    omega

theorem Books.step {s s' : Sys Tid} {a : Act Tid} (h : Books s) (hc : Careful s a)
    (hs : step s a = some s') : Books s' := by
  cases a with
  | call t op => exact h.call hs
  | go t => exact h.go hc hs
  | expire t => exact absurd (hc.symm.trans hs) (by simp)

omit [Fintype Tid] in
theorem careful_of_refused {s : Sys Tid} {a : Act Tid} (hs : step s a = none) : Careful s a := by
  cases a with
  | call t op => trivial
  | go t =>
    change s.Safe (s.pc t)
    simp only [step, Sys.go] at hs
    cases hp : s.pc t with
    | incStore | decStore | set => simp [hp] at hs
    | idle | inc | release | waiting | dec | test | reset | acquire | ask => trivial
  | expire t => exact hs

/-- Careful runs are those along which the books stay right. -/
theorem books_along_iff (as : List (Act Tid)) :
    (machine Tid).Along (fun s a ↦ ∀ s', step s a = some s' → Books s') start as ↔
      (machine Tid).Along Careful start as := by
  apply Machine.along_congr (I := Books)
  · intro s a h
    constructor
    · intro hk
      cases hs : step s a with
      | none => exact careful_of_refused hs
      | some s' => exact h.careful (hk s' hs) hs
    · intro hc s' hs
      exact h.step hc hs
  · intro s a s' h hc hs
    exact h.step hc hs
  · exact books_start

end Books

/-! ### Until an event is set -/

section Silence
variable [DecidableEq Tid] {n : Nat}

/-- Unless an event has been set since there were `n`, both are clear and no one has woken. -/
structure Silent (n : Nat) (s : Sys Tid) : Prop where
  le : n ≤ s.sets
  clear : s.sets = n → s.cv.signalEvt = false ∧ s.cv.broadcastEvt = false
  asleep : s.sets = n → ∀ t, ¬(s.pc t).Woken

/-- A step of thread `t` that sets no event and takes it to `p`. -/
theorem Silent.update {s s' : Sys Tid} {t : Tid} {p : Pc} (h : Silent n s)
    (hp : s'.pc = Function.update s.pc t p) (hn : s'.sets = s.sets)
    (hs : s.cv.signalEvt = false → s'.cv.signalEvt = false)
    (hb : s.cv.broadcastEvt = false → s'.cv.broadcastEvt = false)
    (hw : s.sets = n → ¬p.Woken) : Silent n s' where
  le := by
    rw [hn]
    exact h.le
  clear := by
    intro he
    have hc := h.clear (hn.symm.trans he)
    exact ⟨hs hc.1, hb hc.2⟩
  asleep := by
    intro he u
    rw [hp]
    by_cases hu : u = t
    · subst hu
      rw [Function.update_self]
      exact hw (hn.symm.trans he)
    · rw [Function.update_of_ne hu]
      exact h.asleep (hn.symm.trans he) u

theorem Silent.move {s : Sys Tid} {t : Tid} {p : Pc} (h : Silent n s)
    (hw : s.sets = n → ¬p.Woken) : Silent n (s.move t p) :=
  h.update rfl rfl id id hw

omit [DecidableEq Tid] in
theorem Silent.congr {s s' : Sys Tid} (h : Silent n s) (hp : s'.pc = s.pc) (hc : s'.cv = s.cv)
    (hn : s'.sets = s.sets) : Silent n s' where
  le := by
    rw [hn]
    exact h.le
  clear := by
    rw [hn, hc]
    exact h.clear
  asleep := by
    rw [hn, hp]
    exact h.asleep

theorem Silent.call {s s' : Sys Tid} {t : Tid} {op : Op} (h : Silent n s)
    (hs : s.call t op = some s') : Silent n s' := by
  rcases call_cases hs with ⟨hp, hc, hn⟩ | ⟨-, p, -, hw, rfl⟩
  · exact h.congr hp hc hn
  · exact h.move fun _ ↦ hw

/-- While no event is set no sleeper gets through. -/
theorem Silent.go {s s' : Sys Tid} {t : Tid} (h : Silent n s) (hs : s.go t = some s') :
    Silent n s' := by
  have hsleep : s.sets = n → ¬(s.pc t).Woken := fun he ↦ h.asleep he t
  unfold Sys.go at hs
  cases hp : s.pc t with
  | idle => simp only [hp, reduceCtorEq] at hs
  | inc =>
    simp only [hp, Option.some.injEq] at hs
    subst hs
    exact h.move (by simp [Pc.Woken])
  | incStore m =>
    simp only [hp, Option.some.injEq] at hs
    subst hs
    exact h.update rfl rfl id id (by simp [Pc.Woken])
  | release =>
    simp only [hp, Option.some.injEq] at hs
    subst hs
    exact h.update rfl rfl id id (by simp [Pc.Woken])
  | waiting =>
    simp only [hp, Option.map_eq_some_iff] at hs
    rcases hs with ⟨⟨res, c⟩, hr, rfl⟩
    have hset : s.sets ≠ n := by
      intro he
      simp [ConditionVar.take, h.clear he] at hr
    exact ⟨h.le, fun he ↦ absurd he hset, fun he ↦ absurd he hset⟩
  | dec res =>
    simp only [hp, Option.some.injEq] at hs
    subst hs
    exact h.move fun he _ ↦ hsleep he (by simp [hp, Pc.Woken])
  | decStore res m | reset =>
    simp only [hp, Option.some.injEq] at hs
    subst hs
    exact h.update rfl rfl id (by simp) (by simp [Pc.Woken])
  | test res | ask e =>
    simp only [hp, Option.some.injEq] at hs
    subst hs
    refine h.move fun _ ↦ ?_
    split <;> simp [Pc.Woken]
  | acquire ok =>
    simp only [hp, Option.map_eq_some_iff] at hs
    rcases hs with ⟨m, -, rfl⟩
    exact h.update rfl rfl id id (by simp [Pc.Woken])
  | set e =>
    simp only [hp, Option.some.injEq] at hs
    subst hs
    have hle := h.le
    have hset : s.sets + 1 ≠ n := by omega
    exact ⟨Nat.le_succ_of_le hle, fun he ↦ absurd he hset, fun he ↦ absurd he hset⟩

theorem Silent.step {s s' : Sys Tid} {a : Act Tid} (h : Silent n s) (hs : step s a = some s') :
    Silent n s' := by
  cases a with
  | call t op => exact h.call hs
  | go t => exact h.go hs
  | expire t =>
    simp only [Win32CondVar.step, Sys.expire, Option.ite_none_right_eq_some,
      Option.some.injEq] at hs
    rcases hs with ⟨-, rfl⟩
    exact h.move (by simp [Pc.Woken])

end Silence

/-! ### The bookkeeping -/

section Main
variable [Fintype Tid] [DecidableEq Tid]

/-- The count is the number of threads inside. With no thread in a wait the event of the broadcasts
is clear, and whatever follows, no wait returns before an event is set. -/
structure Obeys (s : Sys Tid) : Prop where
  counted : s.cv.nthread.toNat = inside s
  clear : (∀ t, ¬(s.pc t).InWait) → s.cv.broadcastEvt = false
  blocks : (∀ t, ¬(s.pc t).InWait) → ∀ as s', (machine Tid).run s as = some s' →
    s'.sets = s.sets → ∀ t, ¬(s'.pc t).Woken

omit [DecidableEq Tid] in
theorem Books.silent {s : Sys Tid} (h : Books s) (hq : ∀ t, ¬(s.pc t).InWait) :
    Silent s.sets s := by
  have hz : inside s = 0 := by
    apply (total_eq_zero_iff _ _).mpr
    intro t
    have ht := hq t
    cases hp : s.pc t <;> simp_all [Pc.InWait, Pc.weight]
  have hn : s.cv.nthread = 0 := by
    apply UInt32.toNat_inj.mp
    rw [h.count, hz]
    rfl
  refine ⟨Nat.le_refl _, fun _ ↦ ⟨?_, ?_⟩, fun _ t hw ↦ ?_⟩
  · cases hs : s.cv.signalEvt with
    | false => rfl
    | true => exact absurd hn (h.signal hs)
  · cases hb : s.cv.broadcastEvt with
    | false => rfl
    | true =>
      rcases h.broadcast hb with hne | ⟨t, ht⟩
      · exact absurd hn hne
      · have hq := hq t
        cases hp : s.pc t <;> simp_all [Pc.InWait, Pc.Resets]
  · have hq := hq t
    cases hp : s.pc t <;> simp_all [Pc.InWait, Pc.Woken]

theorem Books.obeys {s : Sys Tid} (h : Books s) : Obeys s where
  counted := h.count
  clear := fun hq ↦ ((h.silent hq).clear rfl).2
  blocks := by
    intro hq as s' hr he
    have hs : Silent s.sets s' :=
      Machine.run_invariant (fun _ _ _ hi hs ↦ hi.step hs) (h.silent hq) hr
    exact hs.asleep he

/-- In every state of a run whose steps are careful the books are right. -/
theorem obeys_of_careful (as : List (Act Tid)) {s : Sys Tid}
    (hc : (machine Tid).Along Careful start as) (hr : (machine Tid).run start as = some s) :
    Obeys s := by
  apply Books.obeys
  exact Machine.run_along (I := Books) (fun _ _ _ h hc hs ↦ h.step hc hs) books_start hc hr

/-- One thread waits, the other broadcasts. -/
theorem obeys_of_careful_two : ∃ s, (machine (Fin 2)).run start
    [.call 0 .lock, .call 0 .wait, .go 0, .go 0, .go 0, .call 1 .lock, .call 1 (.signal .broadcast),
      .go 1, .go 1, .call 1 .unlock, .go 0, .go 0, .go 0, .go 0, .go 0, .go 0] = some s ∧
      Obeys s :=
  ⟨_, rfl, obeys_of_careful [.call 0 .lock, .call 0 .wait, .go 0, .go 0, .go 0, .call 1 .lock,
    .call 1 (.signal .broadcast), .go 1, .go 1, .call 1 .unlock, .go 0, .go 0, .go 0, .go 0, .go 0,
    .go 0] (by decide) rfl⟩

/-- A wait that runs out of time still counts when it is over. -/
theorem not_obeys : ∃ s, (machine (Fin 1)).run start
    [.call 0 .lock, .call 0 .wait, .go 0, .go 0, .go 0, .expire 0, .go 0] = some s ∧
      ¬Obeys s := by
  refine ⟨_, rfl, fun h ↦ ?_⟩
  exact absurd h.counted (by decide)

end Main

end CtrlrFx.Os.Win32CondVar
