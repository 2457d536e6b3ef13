import CtrlrFx.Base.Monitor
import CtrlrFx.Os.RecursiveMutex

/-!
# Calls on a recursive mutex, step by step

`src/os/generic/RecursiveMutex.cpp`: a call takes the lock of the condition variable, does its part
under it, and gives it back. `lock` and `unlock` wait for that lock, `trylock` gives up if anyone
has it. What is done under the lock is a step of the recursive mutex as a whole.
-/

namespace CtrlrFx.Os.RecursiveCalls
open Base Monitor

/-- Calls of a thread. -/
inductive Op where
  | lock
  | trylock
  | unlock
  deriving DecidableEq, Repr

/-- Where a thread is: outside, about to take the lock, under it, in a wait for the level to drop,
behind that wait, or about to give the lock back, in a `trylock` with its result. -/
inductive Place where
  | idle
  | enter (op : Op)
  | body (op : Op)
  | sleep
  | loop
  | leave
  | ret (res : Bool)
  deriving DecidableEq, Repr

/-- Where a thread holds the lock of the condition variable. -/
def Inside : Place → Prop
  | .body _ | .loop | .leave | .ret _ => True
  | _ => False

/-- Where a thread is in a `trylock`. -/
def InTrylock : Place → Prop
  | .enter .trylock | .body .trylock | .ret _ => True
  | _ => False

variable {Tid : Type}

/-- Thread `t` owns the mutex, as `unlock` tests it. -/
def Owns (m : RecursiveMutex.Sys Tid) (t : Tid) : Prop := 0 < m.level ∧ m.owner = t

/-- Another thread than `t` owns it. -/
def OtherOwns (m : RecursiveMutex.Sys Tid) (t : Tid) : Prop := 0 < m.level ∧ m.owner ≠ t

instance [DecidableEq Tid] (m : RecursiveMutex.Sys Tid) : DecidablePred (Owns m) :=
  fun _ ↦ inferInstanceAs (Decidable (_ ∧ _))

instance [DecidableEq Tid] (m : RecursiveMutex.Sys Tid) : DecidablePred (OtherOwns m) :=
  fun _ ↦ inferInstanceAs (Decidable (_ ∧ _))

/-- What is known of the call of a thread: whether it came as the owner, at which level, and whether
another thread has owned the mutex since. -/
structure Watch where
  owned : Bool
  level : Int32
  other : Bool
  deriving DecidableEq, Repr

/-- The mutex, the lock of its condition variable, and the threads. -/
structure Sys (Tid : Type) where
  thr : Threads Tid Place
  m : RecursiveMutex.Sys Tid
  watch : Tid → Watch

/-- A mutex just constructed, whose owner is what the memory has. -/
def start (owner : Tid) : Sys Tid where
  thr := { holder := none, pc := fun _ ↦ .idle }
  m := RecursiveMutex.start owner
  watch := fun _ ↦ { owned := false, level := 0, other := false }

/-- Steps: a call, the next step of one, or a sleeper wakes by itself. -/
inductive Act (Tid : Type) where
  | call (t : Tid) (op : Op)
  | go (t : Tid) (w : Option Tid)
  | spurious (t : Tid)

namespace Act

/-- Whose step it is. -/
def thread : Act Tid → Tid
  | .call t _ | .go t _ | .spurious t => t

end Act

variable [DecidableEq Tid]

namespace Sys

/-- A thread takes the lock if it is free. -/
def enter (s : Sys Tid) (t : Tid) (p : Place) : Option (Sys Tid) :=
  if s.thr.holder = none then some { s with thr := s.thr.enter t p } else none

/-- A call starts. -/
def call (s : Sys Tid) (t : Tid) (op : Op) : Option (Sys Tid) :=
  if s.thr.pc t = .idle then
    some { s with
      thr := s.thr.move t (.enter op)
      watch := Function.update s.watch t
        { owned := decide (Owns s.m t), level := s.m.level, other := false } }
  else none

/-- Thread `t` has looked at the level, and sleeps or is done. -/
def settle (s : Sys Tid) (t : Tid) (m : RecursiveMutex.Sys Tid) : Sys Tid :=
  { s with thr := if m.pc t = .asleep then s.thr.leave t .sleep else s.thr.move t .leave, m := m }

/-- The next step of a call; `src/os/generic/RecursiveMutex.cpp:14–67`. `w` is the sleeper that a
signal wakes. -/
def go [Fintype Tid] (s : Sys Tid) (t : Tid) (w : Option Tid) : Option (Sys Tid) :=
  match s.thr.pc t with
  | .idle => none
  | .enter .trylock =>
    if s.thr.holder = none then some { s with thr := s.thr.enter t (.body .trylock) }
    else some { s with thr := s.thr.move t .idle, m := (s.m.trylock t true).2 }
  | .enter op => s.enter t (.body op)
  | .body .lock => some (s.settle t (s.m.lock t))
  | .body .trylock =>
    some { s with
      thr := s.thr.move t (.ret (s.m.trylock t false).1), m := (s.m.trylock t false).2 }
  | .body .unlock => (s.m.unlock t w).map fun m ↦ { s with thr := s.thr.move t .leave, m := m }
  | .sleep => if s.m.pc t = .woken then s.enter t .loop else none
  | .loop => some (s.settle t (s.m.loop t))
  | .leave | .ret _ => some { s with thr := s.thr.leave t .idle }

/-- Everyone in a call sees who owns the mutex now. -/
def note (s : Sys Tid) : Sys Tid :=
  { s with watch := fun t ↦
      { s.watch t with other := (s.watch t).other || decide (OtherOwns s.m t) } }

@[simp] theorem thr_note (s : Sys Tid) : s.note.thr = s.thr := rfl

@[simp] theorem m_note (s : Sys Tid) : s.note.m = s.m := rfl

variable [Fintype Tid]

/-- A step, without what is seen of it. -/
def move (s : Sys Tid) : Act Tid → Option (Sys Tid)
  | .call t op => s.call t op
  | .go t w => s.go t w
  | .spurious t => (s.m.wake t).map fun m ↦ { s with m := m }

end Sys

variable [Fintype Tid]

/-- One step. -/
def step (s : Sys Tid) (a : Act Tid) : Option (Sys Tid) := (s.move a).map Sys.note

/-- The mutex and its threads as a machine. -/
def machine (Tid : Type) [DecidableEq Tid] [Fintype Tid] : Machine (Sys Tid) (Act Tid) where
  init s := ∃ o, s = start o
  step := step

/-! ### Steps of the mutex as a whole -/

section Core
variable {m m' : RecursiveMutex.Sys Tid} {t u : Tid}

/-- Whose step of the mutex it is. -/
def mover : RecursiveMutex.Act Tid → Tid
  | .lock t | .trylock t _ | .unlock t _ | .resume t | .spurious t => t

omit [Fintype Tid] in
/-- Against the owner a thread can only wait. -/
theorem loop_of_owned (h : Owns m t) : m.loop u = m.moveTo u .asleep := by
  rw [RecursiveMutex.Sys.loop, if_pos h.1]

omit [DecidableEq Tid] [Fintype Tid] in
/-- Who owns the mutex has raised its level. -/
theorem Owns.level_ne (h : Owns m t) : m.level ≠ 0 := by
  intro h0
  have hp := h.1
  rw [h0] at hp
  exact absurd hp (by decide)

omit [Fintype Tid] in
theorem lock_of_owned (h : Owns m t) (hu : u ≠ t) : m.lock u = m.moveTo u .asleep := by
  have hl := h.level_ne
  have ho : m.owner ≠ u := fun ho ↦ hu (ho.symm.trans h.2)
  rw [RecursiveMutex.Sys.lock, if_neg hl, if_pos ho, loop_of_owned h]

omit [Fintype Tid] in
theorem trylock_of_owned (h : Owns m t) (hu : u ≠ t) (busy : Bool) :
    m.trylock u busy = (false, m) := by
  have hl := h.level_ne
  have ho : m.owner ≠ u := fun ho ↦ hu (ho.symm.trans h.2)
  cases busy <;> simp [RecursiveMutex.Sys.trylock, hl, ho]

theorem unlock_of_owned (h : Owns m t) (hu : u ≠ t) (w : Option Tid) :
    m.unlock u w = some m := by
  have ho : m.owner ≠ u := fun ho ↦ hu (ho.symm.trans h.2)
  simp [RecursiveMutex.Sys.unlock, ho]

omit [Fintype Tid] in
/-- Under the lock a `trylock` fails only if the level is not 0 and another thread is the owner. -/
theorem trylock_fails_iff : (m.trylock t false).1 = false ↔ m.level ≠ 0 ∧ m.owner ≠ t := by
  by_cases hl : m.level = 0
  · simp [RecursiveMutex.Sys.trylock, hl]
  · by_cases ho : m.owner = t
    · simp [RecursiveMutex.Sys.trylock, hl, ho]
    · simp [RecursiveMutex.Sys.trylock, hl, ho]

omit [Fintype Tid] in
theorem wake_members (h : m.wake u = some m') : m'.owner = m.owner ∧ m'.level = m.level := by
  rw [(RecursiveMutex.wake_cases h).2]
  exact ⟨rfl, rfl⟩

/-- What other threads do leaves the owner and its level. -/
theorem members_of_owned {b : RecursiveMutex.Act Tid} (h : Owns m t)
    (hs : RecursiveMutex.step m b = some m') (hb : mover b ≠ t) :
    m'.owner = m.owner ∧ m'.level = m.level := by
  cases b with
  | lock u =>
    simp only [RecursiveMutex.step, Option.ite_none_right_eq_some, Option.some.injEq] at hs
    rw [← hs.2, lock_of_owned (u := u) h hb]
    exact ⟨rfl, rfl⟩
  | trylock u busy =>
    simp only [RecursiveMutex.step, Option.ite_none_right_eq_some, Option.some.injEq] at hs
    rw [← hs.2, trylock_of_owned (u := u) h hb]
    exact ⟨rfl, rfl⟩
  | unlock u w =>
    simp only [RecursiveMutex.step, Option.ite_none_right_eq_some] at hs
    have hm := hs.2
    rw [unlock_of_owned (u := u) h hb] at hm
    cases hm
    exact ⟨rfl, rfl⟩
  | resume u =>
    simp only [RecursiveMutex.step, Option.ite_none_right_eq_some, Option.some.injEq] at hs
    rw [← hs.2, loop_of_owned h]
    exact ⟨rfl, rfl⟩
  | spurious u => exact wake_members hs

omit [Fintype Tid] in
/-- Who has looked at the level sleeps or has the mutex. -/
theorem pc_loop (m : RecursiveMutex.Sys Tid) (t : Tid) :
    ∃ p, (p = .asleep ∨ p = .idle) ∧ (m.loop t).pc = Function.update m.pc t p := by
  unfold RecursiveMutex.Sys.loop
  split
  · exact ⟨_, .inl rfl, rfl⟩
  · exact ⟨_, .inr rfl, rfl⟩

omit [Fintype Tid] in
theorem pc_lock (m : RecursiveMutex.Sys Tid) (t : Tid) :
    ∃ p, (p = .asleep ∨ p = .idle) ∧ (m.lock t).pc = Function.update m.pc t p := by
  unfold RecursiveMutex.Sys.lock
  split
  · exact ⟨_, .inr rfl, rfl⟩
  · split
    · exact pc_loop m t
    · exact ⟨_, .inr rfl, rfl⟩

omit [Fintype Tid] in
theorem pc_trylock (h : m.pc t = .idle) (busy : Bool) : (m.trylock t busy).2.pc = m.pc := by
  have hg : Function.update m.pc t .idle = m.pc := by
    rw [← h]
    exact Function.update_eq_self t m.pc
  unfold RecursiveMutex.Sys.trylock
  split
  · rfl
  · split
    · exact hg
    · split
      · rfl
      · exact hg

/-- Nothing happens to a thread, or it is a sleeper and wakes. -/
def Roused (m m' : RecursiveMutex.Sys Tid) (t : Tid) : Prop :=
  m'.pc t = m.pc t ∨ m.pc t = .asleep ∧ m'.pc t = .woken

omit [Fintype Tid] in
theorem roused_wake (h : m.wake u = some m') (t : Tid) : Roused m m' t := by
  rcases RecursiveMutex.wake_cases h with ⟨hp, rfl⟩
  by_cases hu : t = u
  · subst hu
    exact .inr ⟨hp, by simp [RecursiveMutex.Sys.moveTo]⟩
  · exact .inl (by simp [RecursiveMutex.Sys.moveTo, hu])

theorem roused_unlock {w : Option Tid} (h : m.unlock u w = some m') (t : Tid) : Roused m m' t := by
  unfold RecursiveMutex.Sys.unlock at h
  split at h
  · dsimp only at h
    split at h
    · rcases RecursiveMutex.signal_cases h with ⟨-, rfl⟩ | ⟨v, hv, rfl⟩
      · exact .inl rfl
      · by_cases ht : t = v
        · subst ht
          exact .inr ⟨hv, by simp [RecursiveMutex.Sys.moveTo]⟩
        · exact .inl (by simp [RecursiveMutex.Sys.moveTo, ht])
    · cases h
      exact .inl rfl
  · cases h
    exact .inl rfl

theorem roused_of_other {b : RecursiveMutex.Act Tid} (hs : RecursiveMutex.step m b = some m')
    (hb : t ≠ mover b) : Roused m m' t := by
  cases b with
  | lock u =>
    simp only [RecursiveMutex.step, Option.ite_none_right_eq_some, Option.some.injEq] at hs
    rcases pc_lock m u with ⟨p, -, hp⟩
    rw [← hs.2, Roused, hp]
    exact .inl (Function.update_of_ne hb _ _)
  | trylock u busy =>
    simp only [RecursiveMutex.step, Option.ite_none_right_eq_some, Option.some.injEq] at hs
    rw [← hs.2, Roused, pc_trylock hs.1]
    exact .inl rfl
  | unlock u w =>
    simp only [RecursiveMutex.step, Option.ite_none_right_eq_some] at hs
    exact roused_unlock hs.2 t
  | resume u =>
    simp only [RecursiveMutex.step, Option.ite_none_right_eq_some, Option.some.injEq] at hs
    rcases pc_loop m u with ⟨p, -, hp⟩
    rw [← hs.2, Roused, hp]
    exact .inl (Function.update_of_ne hb _ _)
  | spurious u => exact roused_wake hs t

end Core

/-! ### Refinement -/

section Refinement
variable {s s' : Sys Tid} {t : Tid}

/-- A thread sleeps in the mutex only while it is in a wait. -/
def Awake (m : RecursiveMutex.Sys Tid) (t : Tid) : Place → Prop
  | .sleep => m.pc t ≠ .idle
  | .loop => m.pc t = .woken
  | _ => m.pc t = .idle

omit [DecidableEq Tid] [Fintype Tid] in
theorem Awake.roused {m m' : RecursiveMutex.Sys Tid} {p : Place} (h : Awake m t p)
    (hr : Roused m m' t) : Awake m' t p := by
  cases p with
  | sleep =>
    rcases hr with hr | ⟨-, hr⟩
    · exact hr.trans_ne h
    · simp [Awake, hr]
  | _ =>
    rcases hr with hr | ⟨ha, -⟩
    · exact hr.trans h
    · cases ha.symm.trans h

/-- What a step of thread `t` does: the lock stays with those that hold it, the other threads stay
where they are, and the mutex as a whole stays or takes a step of thread `t`. -/
structure Moved (s s' : Sys Tid) (t : Tid) : Prop where
  fits : s'.thr.Fits Inside
  others : ∀ u, u ≠ t → s'.thr.pc u = s.thr.pc u ∧ s'.watch u = s.watch u
  awake : Awake s'.m t (s'.thr.pc t)
  core : s'.m = s.m ∨ ∃ b, mover b = t ∧ RecursiveMutex.step s.m b = some s'.m

omit [Fintype Tid] in
theorem fits_enter {p : Place} (hf : s.thr.Fits Inside) (hp : Inside p)
    (h : s.enter t p = some s') : s'.thr.Fits Inside ∧ s' = { s with thr := s.thr.enter t p } := by
  simp only [Sys.enter, Option.ite_none_right_eq_some, Option.some.injEq] at h
  rcases h with ⟨hn, rfl⟩
  exact ⟨hf.enter hn hp, rfl⟩

theorem Moved.of_pc {p : Place} (hf : s'.thr.Fits Inside)
    (hp : s'.thr.pc = Function.update s.thr.pc t p) (hw : ∀ u, u ≠ t → s'.watch u = s.watch u)
    (ha : Awake s'.m t p)
    (hm : s'.m = s.m ∨ ∃ b, mover b = t ∧ RecursiveMutex.step s.m b = some s'.m) :
    Moved s s' t where
  fits := hf
  others := by
    intro u hu
    rw [hp, Function.update_of_ne hu]
    exact ⟨rfl, hw u hu⟩
  awake := by
    rw [hp, Function.update_self]
    exact ha
  core := hm

/-- A thread that moves while the mutex as a whole stays. -/
theorem Moved.of_thr {thr : Threads Tid Place} {p : Place} (hf : thr.Fits Inside)
    (hp : thr.pc = Function.update s.thr.pc t p) (ha : Awake s.m t p) :
    Moved s { s with thr := thr } t :=
  .of_pc hf hp (fun _ _ ↦ rfl) ha (.inl rfl)

/-- A look at the level takes a thread to sleep or out. -/
theorem moved_settle {m' : RecursiveMutex.Sys Tid} {b : RecursiveMutex.Act Tid}
    (hf : s.thr.Fits Inside) (hin : Inside (s.thr.pc t))
    (hpc : ∃ p, (p = .asleep ∨ p = .idle) ∧ m'.pc = Function.update s.m.pc t p)
    (hb : mover b = t) (hs : RecursiveMutex.step s.m b = some m') : Moved s (s.settle t m') t := by
  rcases hpc with ⟨p, hp, hpc⟩
  have hself : m'.pc t = p := by
    rw [hpc, Function.update_self]
  unfold Sys.settle
  rcases hp with rfl | rfl
  · rw [if_pos hself]
    exact .of_pc (hf.leave hin id) rfl (fun _ _ ↦ rfl) (by simp [Awake, hself]) (.inr ⟨b, hb, hs⟩)
  · rw [if_neg (by simp [hself])]
    exact .of_pc (hf.move (iff_of_true trivial hin)) rfl (fun _ _ ↦ rfl) hself (.inr ⟨b, hb, hs⟩)

theorem moved_go {w : Option Tid} (hf : s.thr.Fits Inside)
    (ha : Awake s.m t (s.thr.pc t)) (hs : s.go t w = some s') : Moved s s' t := by
  unfold Sys.go at hs
  split at hs
  · cases hs
  · next hp =>
    rw [hp] at ha
    split at hs
    · next hn =>
      cases hs
      exact .of_thr (hf.enter hn trivial) rfl ha
    · cases hs
      exact .of_pc (hf.move (by simp [hp, Inside])) rfl (fun _ _ ↦ rfl) ha (.inl rfl)
  · next op _ hp =>
    rw [hp] at ha
    rcases fits_enter (p := .body op) hf trivial hs with ⟨hf', rfl⟩
    exact .of_thr hf' rfl ha
  · next hp =>
    cases hs
    rw [hp] at ha
    exact moved_settle (b := .lock t) hf (by simp [hp, Inside]) (pc_lock s.m t) rfl (if_pos ha)
  · next hp =>
    cases hs
    rw [hp] at ha
    refine .of_pc (hf.move (by simp [hp, Inside])) rfl (fun _ _ ↦ rfl) ?_
      (.inr ⟨.trylock t false, rfl, if_pos ha⟩)
    exact (congrFun (pc_trylock ha false) t).trans ha
  · next hp =>
    simp only [Option.map_eq_some_iff] at hs
    rcases hs with ⟨m, hm, rfl⟩
    rw [hp] at ha
    refine .of_pc (hf.move (by simp [hp, Inside])) rfl (fun _ _ ↦ rfl) ?_
      (.inr ⟨.unlock t w, rfl, (if_pos ha).trans hm⟩)
    exact Awake.roused (p := .leave) ha (roused_unlock hm t)
  · next hp =>
    simp only [Option.ite_none_right_eq_some] at hs
    rcases hs with ⟨hw, hs⟩
    rcases fits_enter (p := .loop) hf trivial hs with ⟨hf', rfl⟩
    exact .of_thr hf' rfl hw
  · next hp =>
    cases hs
    rw [hp] at ha
    exact moved_settle (b := .resume t) hf (by simp [hp, Inside]) (pc_loop s.m t) rfl (if_pos ha)
  · next hp =>
    cases hs
    rw [hp] at ha
    exact .of_thr (hf.leave (by simp [hp, Inside]) id) rfl ha
  · next hp =>
    cases hs
    rw [hp] at ha
    exact .of_thr (hf.leave (by simp [hp, Inside]) id) rfl ha

theorem moved_move {a : Act Tid} (hf : s.thr.Fits Inside)
    (ha : Awake s.m a.thread (s.thr.pc a.thread)) (hs : s.move a = some s') :
    Moved s s' a.thread := by
  cases a with
  | call t op =>
    simp only [Sys.move, Sys.call, Option.ite_none_right_eq_some, Option.some.injEq] at hs
    rcases hs with ⟨hp, rfl⟩
    simp only [Act.thread, hp] at ha
    refine .of_pc (hf.move (by simp [hp, Inside])) rfl ?_ ha (.inl rfl)
    intro u hu
    exact Function.update_of_ne hu _ _
  | go t w => exact moved_go hf ha hs
  | spurious t =>
    simp only [Sys.move, Option.map_eq_some_iff] at hs
    rcases hs with ⟨m, hm, rfl⟩
    exact
      { fits := hf
        others := fun _ _ ↦ ⟨rfl, rfl⟩
        awake := ha.roused (roused_wake hm _)
        core := .inr ⟨.spurious t, rfl, hm⟩ }

/-- The lock is with those that hold it, and the mutex as a whole knows who is in a wait. -/
structure Linked (s : Sys Tid) : Prop where
  fits : s.thr.Fits Inside
  awake : ∀ t, Awake s.m t (s.thr.pc t)

omit [DecidableEq Tid] [Fintype Tid] in
theorem linked_start (o : Tid) : Linked (start o) where
  fits := Threads.fits_start (by simp [Inside])
  awake := fun _ ↦ rfl

theorem step_moved {a : Act Tid} (h : Linked s) (hs : step s a = some s') :
    ∃ s1, s.move a = some s1 ∧ s' = s1.note ∧ Moved s s1 a.thread := by
  simp only [step, Option.map_eq_some_iff] at hs
  rcases hs with ⟨s1, hs, rfl⟩
  exact ⟨s1, hs, rfl, moved_move h.fits (h.awake a.thread) hs⟩

theorem Linked.step {a : Act Tid} (h : Linked s) (hs : step s a = some s') : Linked s' := by
  rcases step_moved h hs with ⟨s1, -, rfl, hm⟩
  refine ⟨hm.fits, fun t ↦ ?_⟩
  by_cases ht : t = a.thread
  · rw [ht]
    exact hm.awake
  · rw [Sys.thr_note, Sys.m_note, (hm.others t ht).1]
    rcases hm.core with hc | ⟨b, hb, hc⟩
    · rw [hc]
      exact h.awake t
    · exact (h.awake t).roused (roused_of_other hc (hb ▸ ht))

/-- Step by step the calls do what the mutex as a whole does. -/
theorem reachable_core (h : (machine Tid).Reachable s) :
    Linked s ∧ (RecursiveMutex.machine Tid).Reachable s.m := by
  apply h.invariant (I := fun s ↦ Linked s ∧ (RecursiveMutex.machine Tid).Reachable s.m)
  · rintro _ ⟨o, rfl⟩
    exact ⟨linked_start o, .init ⟨o, rfl⟩⟩
  · rintro s a s' ⟨hl, hr⟩ hs
    refine ⟨hl.step hs, ?_⟩
    rcases step_moved hl hs with ⟨s1, -, rfl, hm⟩
    rcases hm.core with hc | ⟨b, -, hc⟩
    · rw [Sys.m_note, hc]
      exact hr
    · exact hr.step hc

end Refinement

/-! ### What a `trylock` knows -/

section Kept
variable {s s' : Sys Tid} {t : Tid}

/-- A thread that came as the owner still is it, at the same level until it has one more. -/
def Kept (m : RecursiveMutex.Sys Tid) (t : Tid) (w : Watch) : Place → Prop
  | .enter .trylock | .body .trylock =>
    w.owned = true → Owns m t ∧ m.level = w.level ∧ w.other = false
  | .ret b =>
    (w.owned = true → b = true ∧ Owns m t ∧ m.level.toInt = w.level.toInt + 1) ∧
      (b = false → w.other = true)
  | _ => True

/-- The invariant of the calls. -/
structure Inv (s : Sys Tid) : Prop where
  linked : Linked s
  seen : ∀ t, OtherOwns s.m t → (s.watch t).other = true
  kept : ∀ t, Kept s.m t (s.watch t) (s.thr.pc t)

/-- In this step a `trylock` of thread `t` comes to its result `b`, or returns it. -/
def Returns (s : Sys Tid) (t : Tid) (b : Bool) : Prop :=
  s.thr.pc t = .enter .trylock ∧ s.thr.holder ≠ none ∧ b = false ∨
    s.thr.pc t = .body .trylock ∧ (s.m.trylock t false).1 = b ∨ s.thr.pc t = .ret b

/-- What a `trylock` promises: that of the owner returns true and raises the level by one, and if
one returns false another thread has owned the mutex since the call. -/
structure Obeys (s s' : Sys Tid) (t : Tid) (b : Bool) : Prop where
  reenters : (s.watch t).owned = true →
    b = true ∧ s'.m.level.toInt = (s.watch t).level.toInt + 1
  fails : b = false → (s.watch t).other = true

/-- A `trylock` goes on, to return as it promises. -/
structure Keeps (s : Sys Tid) (a : Act Tid) : Prop where
  goesOn : ∀ t w, a = .go t w → InTrylock (s.thr.pc t) → ∃ s', step s a = some s'
  obeys : ∀ s' t w b, step s a = some s' → a = .go t w → Returns s t b → Obeys s s' t b

/-- A `trylock` finds the lock held, or the level below 0 and another thread as the owner, only if
another thread has owned the mutex since the call; and that of the owner finds room in the level. -/
structure Careful (s : Sys Tid) (a : Act Tid) : Prop where
  free : ∀ t w, a = .go t w → s.thr.pc t = .enter .trylock → s.thr.holder ≠ none →
    (s.watch t).other = true
  counted : ∀ t w, a = .go t w → s.thr.pc t = .body .trylock → s.m.level.toInt < 0 →
    s.m.owner ≠ t → (s.watch t).other = true
  room : ∀ t w, a = .go t w → s.thr.pc t = .body .trylock → Owns s.m t →
    (s.watch t).owned = true → s.m.level.toInt + 1 < 2 ^ 31

omit [DecidableEq Tid] [Fintype Tid] in
theorem not_otherOwns {m : RecursiveMutex.Sys Tid} (h : Owns m t) : ¬OtherOwns m t :=
  fun ho ↦ ho.2 h.2

omit [Fintype Tid] in
/-- What is seen of an owner is that no one else owns the mutex. -/
theorem Kept.note {m : RecursiveMutex.Sys Tid} {w : Watch} {p : Place} (h : Kept m t w p) :
    Kept m t { w with other := w.other || decide (OtherOwns m t) } p := by
  have hk : (w.owned = true → Owns m t ∧ m.level = w.level ∧ w.other = false) →
      w.owned = true → Owns m t ∧ m.level = w.level ∧
        (w.other || decide (OtherOwns m t)) = false := by
    intro hk ho
    rcases hk ho with ⟨hm, hl, hw⟩
    exact ⟨hm, hl, by simp [hw, not_otherOwns hm]⟩
  cases p with
  | enter op | body op =>
    cases op with
    | trylock => exact hk h
    | lock | unlock => trivial
  | ret b =>
    refine ⟨h.1, fun hb ↦ ?_⟩
    simp [h.2 hb]
  | idle | sleep | loop | leave => trivial

omit [DecidableEq Tid] [Fintype Tid] in
/-- A step that leaves the owner and its level to an owner. -/
theorem Kept.frame {m m' : RecursiveMutex.Sys Tid} {w : Watch} {p : Place} (h : Kept m t w p)
    (hm : Owns m t → m'.owner = m.owner ∧ m'.level = m.level) : Kept m' t w p := by
  have ho : Owns m t → Owns m' t := by
    intro ho
    rcases hm ho with ⟨hown, hl⟩
    exact ⟨by rw [hl]; exact ho.1, hown.trans ho.2⟩
  cases p with
  | enter op | body op =>
    cases op with
    | trylock =>
      intro hw
      rcases h hw with ⟨hown, hl, hoth⟩
      exact ⟨ho hown, (hm hown).2.trans hl, hoth⟩
    | lock | unlock => trivial
  | ret b =>
    refine ⟨fun hw ↦ ?_, h.2⟩
    rcases h.1 hw with ⟨hb, hown, hl⟩
    exact ⟨hb, ho hown, (congrArg Int32.toInt (hm hown).2).trans hl⟩
  | idle | sleep | loop | leave => trivial

omit [Fintype Tid] in
/-- Under the lock the owner gets its level, and who fails has seen another owner. -/
theorem kept_trylock {w : Option Tid} (h : Inv s) (hc : Careful s (.go t w))
    (hp : s.thr.pc t = .body .trylock) :
    Kept (s.m.trylock t false).2 t (s.watch t) (.ret (s.m.trylock t false).1) := by
  have hk := h.kept t
  rw [hp] at hk
  constructor
  · intro hw
    rcases hk hw with ⟨hown, hl, -⟩
    have hroom := hc.room t w rfl hp hown hw
    have hlevel := toInt_succ hroom
    have hpos := int32_pos_iff.mp hown.1
    rw [RecursiveMutex.trylock_owner hown.2]
    simp only [Owns, RecursiveMutex.Sys.grab, RecursiveMutex.Sys.moveTo, int32_pos_iff]
    refine ⟨trivial, ⟨by omega, hown.2⟩, ?_⟩
    rw [hlevel, hl]
  · intro hb
    rcases trylock_fails_iff.mp hb with ⟨hl, ho⟩
    by_cases hn : s.m.level.toInt < 0
    · exact hc.counted t w rfl hp hn ho
    · refine h.seen t ⟨?_, ho⟩
      rw [Ne, int32_eq_zero_iff] at hl
      rw [int32_pos_iff]
      omega

omit [Fintype Tid] in
theorem kept_settle (s : Sys Tid) (t : Tid) (m : RecursiveMutex.Sys Tid) :
    Kept (s.settle t m).m t ((s.settle t m).watch t) ((s.settle t m).thr.pc t) := by
  unfold Sys.settle
  split <;> simp [Kept]

theorem kept_go {w : Option Tid} (h : Inv s) (hc : Careful s (.go t w))
    (hs : s.go t w = some s') :
    Kept s'.m t (s'.watch t) (s'.thr.pc t) := by
  have hk := h.kept t
  unfold Sys.go at hs
  split at hs
  · cases hs
  · next hp =>
    rw [hp] at hk
    split at hs
    · cases hs
      simp only [Threads.pc_enter, Function.update_self]
      exact hk
    · cases hs
      simp [Kept]
  · next op hne hp =>
    rcases fits_enter (p := .body op) h.linked.fits trivial hs with ⟨-, rfl⟩
    simp only [Threads.pc_enter, Function.update_self]
    cases op with
    | trylock => exact absurd rfl hne
    | lock | unlock => trivial
  · cases hs
    exact kept_settle s t _
  · next hp =>
    cases hs
    simp only [Threads.pc_move, Function.update_self]
    exact kept_trylock h hc hp
  · simp only [Option.map_eq_some_iff] at hs
    rcases hs with ⟨m, -, rfl⟩
    simp [Kept]
  · simp only [Option.ite_none_right_eq_some] at hs
    rcases fits_enter (p := .loop) h.linked.fits trivial hs.2 with ⟨-, rfl⟩
    simp [Kept]
  · cases hs
    exact kept_settle s t _
  · cases hs
    simp [Kept]
  · cases hs
    simp [Kept]

theorem kept_move {a : Act Tid} (h : Inv s) (hc : Careful s a) (hs : s.move a = some s') :
    Kept s'.m a.thread (s'.watch a.thread) (s'.thr.pc a.thread) := by
  cases a with
  | call t op =>
    simp only [Sys.move, Sys.call, Option.ite_none_right_eq_some, Option.some.injEq] at hs
    rcases hs with ⟨-, rfl⟩
    cases op <;> simp [Act.thread, Kept]
  | go t w => exact kept_go h hc hs
  | spurious t =>
    simp only [Sys.move, Option.map_eq_some_iff] at hs
    rcases hs with ⟨m, hm, rfl⟩
    exact (h.kept t).frame fun _ ↦ wake_members hm

omit [DecidableEq Tid] [Fintype Tid] in
theorem inv_start (o : Tid) : Inv (start o) where
  linked := linked_start o
  seen := by
    intro t ht
    exact absurd ht.1 (by simp [start, RecursiveMutex.start])
  kept := fun _ ↦ trivial

theorem Inv.step {a : Act Tid} (h : Inv s) (hc : Careful s a) (hs : step s a = some s') :
    Inv s' := by
  have hl := h.linked.step hs
  rcases step_moved h.linked hs with ⟨s1, hmove, rfl, hm⟩
  refine ⟨hl, ?_, ?_⟩
  · intro t ho
    have ho : OtherOwns s1.m t := ho
    simp [Sys.note, ho]
  · intro t
    apply Kept.note
    by_cases ht : t = a.thread
    · rw [ht]
      exact kept_move h hc hmove
    · rcases hm.others t ht with ⟨hp, hw⟩
      rw [Sys.thr_note, hp, hw]
      apply (h.kept t).frame
      intro hown
      rcases hm.core with hc | ⟨b, hb, hc⟩
      · rw [Sys.m_note, hc]
        exact ⟨rfl, rfl⟩
      · exact members_of_owned hown hc (fun he ↦ ht (he.symm.trans hb))

theorem trylock_goes_on (w : Option Tid) (h : InTrylock (s.thr.pc t)) :
    ∃ s', step s (.go t w) = some s' := by
  simp only [RecursiveCalls.step, Sys.move, Sys.go, Option.map_eq_some_iff]
  cases hp : s.thr.pc t with
  | enter op =>
    rw [hp] at h
    cases op with
    | trylock =>
      dsimp only
      split <;> exact ⟨_, _, rfl, rfl⟩
    | lock | unlock => exact h.elim
  | body op =>
    rw [hp] at h
    cases op with
    | trylock => exact ⟨_, _, rfl, rfl⟩
    | lock | unlock => exact h.elim
  | ret b => exact ⟨_, _, rfl, rfl⟩
  | idle | sleep | loop | leave =>
    rw [hp] at h
    exact h.elim

/-- Under the lock a `trylock` moves to its result. -/
theorem step_body {w : Option Tid} (hp : s.thr.pc t = .body .trylock)
    (hs : step s (.go t w) = some s') : s'.m = (s.m.trylock t false).2 := by
  simp only [RecursiveCalls.step, Sys.move, Sys.go, hp, Option.map_some, Option.some.injEq] at hs
  rw [← hs]
  rfl

theorem Inv.keeps {a : Act Tid} (h : Inv s) (hc : Careful s a) : Keeps s a := by
  constructor
  · rintro t w rfl ht
    exact trylock_goes_on w ht
  · rintro s' t w b hs rfl hr
    have hk := h.kept t
    rcases hr with ⟨hp, hn, rfl⟩ | ⟨hp, rfl⟩ | hp
    · rw [hp] at hk
      have ho := hc.free t w rfl hp hn
      refine ⟨fun hw ↦ ?_, fun _ ↦ ho⟩
      rw [(hk hw).2.2] at ho
      cases ho
    · rcases kept_trylock h hc hp with ⟨howner, hfails⟩
      refine ⟨fun hw ↦ ?_, hfails⟩
      rcases howner hw with ⟨hb, -, hl⟩
      rw [step_body hp hs]
      exact ⟨hb, hl⟩
    · rw [hp] at hk
      simp only [RecursiveCalls.step, Sys.move, Sys.go, hp, Option.map_some,
        Option.some.injEq] at hs
      subst hs
      refine ⟨fun hw ↦ ?_, hk.2⟩
      rcases hk.1 hw with ⟨hb, -, hl⟩
      exact ⟨hb, hl⟩

/-- A `trylock` that gives up breaks its promise, unless it may fail, and so does one of the owner
that wraps the level. -/
theorem Inv.keeps_iff {a : Act Tid} (h : Inv s) : Keeps s a ↔ Careful s a := by
  constructor
  · intro hk
    constructor
    · rintro t w rfl hp hn
      rcases hk.goesOn t w rfl (by simp [hp, InTrylock]) with ⟨s', hs⟩
      exact (hk.obeys s' t w false hs rfl (.inl ⟨hp, hn, rfl⟩)).fails rfl
    · rintro t w rfl hp hn ho
      rcases hk.goesOn t w rfl (by simp [hp, InTrylock]) with ⟨s', hs⟩
      have hb : (s.m.trylock t false).1 = false := by
        refine trylock_fails_iff.mpr ⟨?_, ho⟩
        rw [Ne, int32_eq_zero_iff]
        omega
      exact (hk.obeys s' t w false hs rfl (.inr (.inl ⟨hp, hb⟩))).fails rfl
    · rintro t w rfl hp hown hw
      rcases hk.goesOn t w rfl (by simp [hp, InTrylock]) with ⟨s', hs⟩
      have hb := RecursiveMutex.trylock_owner hown.2
      have hl := ((hk.obeys s' t w true hs rfl (.inr (.inl ⟨hp, by rw [hb]⟩))).reenters hw).2
      have hkept := h.kept t
      rw [hp] at hkept
      rw [← (hkept hw).2.1] at hl
      rw [← hl]
      exact Int32.toInt_lt _
  · exact h.keeps

/-- Every `trylock` of a run keeps its promises exactly if none of them gives up while no other
thread has owned the mutex since the call, and none of them wraps the level. -/
theorem trylock_keeps_iff (o : Tid) (as : List (Act Tid)) :
    (machine Tid).Along Keeps (start o) as ↔ (machine Tid).Along Careful (start o) as := by
  apply Machine.along_congr (I := Inv)
  · intro s a h
    exact h.keeps_iff
  · intro s a s' h hc hs
    exact h.step hc hs
  · exact inv_start o

/-- The owner tries while another thread looks at the owner, in an `unlock` to no effect. -/
theorem not_trylock_keeps : ¬(machine (Fin 2)).Along Keeps (start 0)
    ([.call 0 .lock, .go 0 none, .go 0 none, .go 0 none, .call 1 .unlock, .go 1 none,
      .call 0 .trylock] ++ [.go 0 none]) := by
  intro h
  have hk := Machine.along_last h rfl
  have ho := hk.obeys _ 0 none false rfl rfl (.inl ⟨rfl, by decide, rfl⟩)
  exact absurd (ho.reenters rfl).1 (by decide)

end Kept

end CtrlrFx.Os.RecursiveCalls
