import CtrlrFx.Base.Machine
import Mathlib.Data.Fintype.Fin

/-!
# Condition variables on a mutex of their own

`CtrlrFx/os/posix/CtrlrFx/Mutex.h` and `CtrlrFx/os/posix/CtrlrFx/ConditionVar.h`. A mutex object
holds the OS mutex itself, not a pointer to it, so that a copy of the handle is a mutex of its own
from then on. The OS mutex is its owner here, and `pthread_cond_init`, which returns no negative
number, does not fail.
-/

namespace CtrlrFx.Os

/-- A mutex of the OS: who holds it. -/
structure PthreadMutex (Tid : Type) where
  owner : Option Tid
  deriving DecidableEq, Repr

namespace PthreadMutex

variable {Tid : Type} (h : PthreadMutex Tid) (t : Tid)

/-- `pthread_mutex_lock`, which blocks while anyone holds the mutex, be it the caller. -/
def lock : Option (PthreadMutex Tid) := if h.owner = none then some { owner := some t } else none

/-- `pthread_mutex_trylock`. -/
def trylock : Bool × PthreadMutex Tid :=
  if h.owner = none then (true, { owner := some t }) else (false, h)

/-- `pthread_mutex_unlock`, which a thread that does not hold the mutex calls in vain. -/
def unlock [DecidableEq Tid] : PthreadMutex Tid := if h.owner = some t then { owner := none } else h

end PthreadMutex

/-- `CtrlrFx/os/posix/CtrlrFx/Mutex.h:28–30`. -/
structure Mutex (Tid : Type) where
  mutex : PthreadMutex Tid
  own : Bool
  err : Int
  deriving DecidableEq, Repr

namespace Mutex

variable {Tid : Type}

/-- `CtrlrFx/os/posix/CtrlrFx/Mutex.h:104–109`. -/
def new : Mutex Tid := { mutex := { owner := none }, own := true, err := 0 }

/-- A wrapper around a handle, which it copies; `CtrlrFx/os/posix/CtrlrFx/Mutex.h:113–116`. -/
def ofHandle (h : PthreadMutex Tid) (own : Bool := false) : Mutex Tid :=
  { mutex := h, own, err := 0 }

/-- `CtrlrFx/os/posix/CtrlrFx/Mutex.h:52`. -/
def handle (m : Mutex Tid) : PthreadMutex Tid := m.mutex

/-- `CtrlrFx/os/posix/CtrlrFx/Mutex.h:74`. -/
def lock (m : Mutex Tid) (t : Tid) : Option (Mutex Tid) :=
  (m.mutex.lock t).map fun h ↦ { m with mutex := h }

/-- `CtrlrFx/os/posix/CtrlrFx/Mutex.h:81`. -/
def trylock (m : Mutex Tid) (t : Tid) : Bool × Mutex Tid :=
  ((m.mutex.trylock t).1, { m with mutex := (m.mutex.trylock t).2 })

/-- `CtrlrFx/os/posix/CtrlrFx/Mutex.h:84`. -/
def unlock [DecidableEq Tid] (m : Mutex Tid) (t : Tid) : Mutex Tid :=
  { m with mutex := m.mutex.unlock t }

end Mutex

/-- Where a thread is with respect to a condition variable of the OS: not in a wait, asleep, or
woken and about to get the mutex back. -/
inductive Sleep where
  | awake
  | asleep
  | woken
  deriving DecidableEq, Repr

/-- `CtrlrFx/os/posix/CtrlrFx/ConditionVar.h:25–27`. -/
structure ConditionVar (Tid : Type) where
  err : Int
  cond : Tid → Sleep
  mutex : Mutex Tid

namespace ConditionVar

variable {Tid : Type}

/-- `CtrlrFx/os/posix/CtrlrFx/ConditionVar.h:146–151`. -/
def ofMutex (m : Mutex Tid) : ConditionVar Tid :=
  { err := 0, cond := fun _ ↦ .awake, mutex := .ofHandle m.handle }

/-- `CtrlrFx/os/posix/CtrlrFx/ConditionVar.h:68`. -/
def lock (c : ConditionVar Tid) (t : Tid) : Option (ConditionVar Tid) :=
  (c.mutex.lock t).map fun m ↦ { c with mutex := m }

/-- `CtrlrFx/os/posix/CtrlrFx/ConditionVar.h:77`. -/
def trylock (c : ConditionVar Tid) (t : Tid) : Bool × ConditionVar Tid :=
  ((c.mutex.trylock t).1, { c with mutex := (c.mutex.trylock t).2 })

/-- A broadcast; `CtrlrFx/os/posix/CtrlrFx/ConditionVar.h:139–141`. -/
def broadcast (c : ConditionVar Tid) : ConditionVar Tid :=
  { c with cond := fun t ↦ if c.cond t = .asleep then .woken else c.cond t }

variable [DecidableEq Tid]

/-- `CtrlrFx/os/posix/CtrlrFx/ConditionVar.h:81`. -/
def unlock (c : ConditionVar Tid) (t : Tid) : ConditionVar Tid :=
  { c with mutex := c.mutex.unlock t }

/-- A wait up to its sleep, with the mutex given back;
`CtrlrFx/os/posix/CtrlrFx/ConditionVar.h:102–104,126–129`. -/
def wait (c : ConditionVar Tid) (t : Tid) : ConditionVar Tid :=
  { c.unlock t with cond := Function.update c.cond t .asleep }

/-- A sleeper wakes: by a signal, by itself or because its time is over. -/
def wake (c : ConditionVar Tid) (t : Tid) : Option (ConditionVar Tid) :=
  if c.cond t = .asleep then some { c with cond := Function.update c.cond t .woken } else none

/-- The end of a wait: a woken thread gets the mutex back. -/
def resume (c : ConditionVar Tid) (t : Tid) : Option (ConditionVar Tid) :=
  if c.cond t = .woken then
    (c.lock t).map fun c' ↦ { c' with cond := Function.update c.cond t .awake }
  else none

/-- A signal, that wakes `w` or finds no one asleep;
`CtrlrFx/os/posix/CtrlrFx/ConditionVar.h:134–136`. -/
def signal [Fintype Tid] (c : ConditionVar Tid) : Option Tid → Option (ConditionVar Tid)
  | some w => c.wake w
  | none => if ∀ t, c.cond t ≠ .asleep then some c else none

end ConditionVar

/-! ### A mutex and a condition variable on it -/

namespace PosixCondVar
open Base

/-- The two objects. -/
structure Sys (Tid : Type) where
  m : Mutex Tid
  cv : ConditionVar Tid

/-- Calls go to the mutex or to the condition variable. -/
inductive Path where
  | direct
  | cond
  deriving DecidableEq, Repr

/-- The other one. -/
def Path.other : Path → Path
  | .direct => .cond
  | .cond => .direct

variable {Tid : Type}

/-- The condition variable just constructed on a mutex. -/
def start (m : Mutex Tid) : Sys Tid := { m, cv := .ofMutex m }

/-- Calls of a thread. A signal names the sleeper it wakes. -/
inductive Op (Tid : Type) where
  | lock (p : Path)
  | trylock (p : Path)
  | unlock (p : Path)
  | wait
  | signal (w : Option Tid)
  | broadcast

/-- Steps: a call of a thread that is not in a wait, or a wait goes on. -/
inductive Act (Tid : Type) where
  | call (t : Tid) (op : Op Tid)
  | wake (t : Tid)
  | resume (t : Tid)

namespace Sys

/-- Who holds the lock behind a path. -/
def owner (s : Sys Tid) : Path → Option Tid
  | .direct => s.m.mutex.owner
  | .cond => s.cv.mutex.mutex.owner

/-- A blocking call. -/
def lock (s : Sys Tid) (p : Path) (t : Tid) : Option (Sys Tid) :=
  match p with
  | .direct => (s.m.lock t).map fun m ↦ { s with m := m }
  | .cond => (s.cv.lock t).map fun c ↦ { s with cv := c }

/-- A call that does not block. -/
def trylock (s : Sys Tid) (p : Path) (t : Tid) : Sys Tid :=
  match p with
  | .direct => { s with m := (s.m.trylock t).2 }
  | .cond => { s with cv := (s.cv.trylock t).2 }

/-- A release. -/
def unlock [DecidableEq Tid] (s : Sys Tid) (p : Path) (t : Tid) : Sys Tid :=
  match p with
  | .direct => { s with m := s.m.unlock t }
  | .cond => { s with cv := s.cv.unlock t }

end Sys

variable [DecidableEq Tid] [Fintype Tid]

/-- A call. -/
def Sys.call (s : Sys Tid) (t : Tid) : Op Tid → Option (Sys Tid)
  | .lock p => s.lock p t
  | .trylock p => some (s.trylock p t)
  | .unlock p => some (s.unlock p t)
  | .wait => some { s with cv := s.cv.wait t }
  | .signal w => (s.cv.signal w).map fun c ↦ { s with cv := c }
  | .broadcast => some { s with cv := s.cv.broadcast }

/-- One step. -/
def step (s : Sys Tid) : Act Tid → Option (Sys Tid)
  | .call t op => if s.cv.cond t = .awake then s.call t op else none
  | .wake t => (s.cv.wake t).map fun c ↦ { s with cv := c }
  | .resume t => (s.cv.resume t).map fun c ↦ { s with cv := c }

/-- The objects and their threads as a machine. -/
def machine (Tid : Type) [DecidableEq Tid] [Fintype Tid] : Machine (Sys Tid) (Act Tid) where
  init s := ∃ m : Mutex Tid, m.mutex.owner = none ∧ s = start m
  step := step

/-! ### Who holds which lock -/

/-- A step in which thread `t` gets the lock behind `p`. -/
def Gets (s : Sys Tid) (p : Path) (t : Tid) : Act Tid → Prop
  | .call u (.lock q) | .call u (.trylock q) =>
    u = t ∧ q = p ∧ s.cv.cond t = .awake ∧ s.owner p = none
  | .resume u => u = t ∧ p = .cond ∧ s.cv.cond t = .woken ∧ s.owner p = none
  | _ => False

/-- A step gets one lock for a thread, or no thread holds what it did not hold before. -/
def Moves (s s' : Sys Tid) (a : Act Tid) : Prop :=
  (∃ p t, Gets s p t a ∧ s'.owner p = some t ∧ s'.owner p.other = s.owner p.other) ∨
    (∀ p t, ¬Gets s p t a) ∧ ∀ p t, s'.owner p = some t → s.owner p = some t

omit [DecidableEq Tid] [Fintype Tid] in
/-- A call that blocks returns with a lock that was free. -/
theorem lock_cases {s s' : Sys Tid} {p : Path} {t : Tid} (h : s.lock p t = some s') :
    s.owner p = none ∧ s'.owner p = some t ∧ s'.owner p.other = s.owner p.other := by
  cases p <;> simp only [Sys.lock, ConditionVar.lock, Mutex.lock, PthreadMutex.lock,
    Option.map_eq_some_iff, Option.ite_none_right_eq_some, Option.some.injEq] at h
  · rcases h with ⟨_, ⟨_, ⟨hn, rfl⟩, rfl⟩, rfl⟩
    exact ⟨hn, rfl, rfl⟩
  · rcases h with ⟨_, ⟨_, ⟨_, ⟨hn, rfl⟩, rfl⟩, rfl⟩, rfl⟩
    exact ⟨hn, rfl, rfl⟩

omit [DecidableEq Tid] [Fintype Tid] in
theorem lock_free {s : Sys Tid} {p : Path} (t : Tid) (h : s.owner p = none) :
    ∃ s', s.lock p t = some s' := by
  cases p <;> simp only [Sys.owner] at h <;>
    simp [Sys.lock, ConditionVar.lock, Mutex.lock, PthreadMutex.lock, h]

omit [DecidableEq Tid] [Fintype Tid] in
theorem trylock_free {s : Sys Tid} {p : Path} (t : Tid) (h : s.owner p = none) :
    (s.trylock p t).owner p = some t ∧ (s.trylock p t).owner p.other = s.owner p.other := by
  cases p <;> simp only [Sys.owner] at h <;>
    simp [Sys.trylock, ConditionVar.trylock, Mutex.trylock, PthreadMutex.trylock, h, Sys.owner,
      Path.other]

omit [DecidableEq Tid] [Fintype Tid] in
theorem trylock_held {s : Sys Tid} {p : Path} (t : Tid) (h : s.owner p ≠ none) :
    s.trylock p t = s := by
  cases p <;> simp only [Sys.owner] at h <;>
    simp [Sys.trylock, ConditionVar.trylock, Mutex.trylock, PthreadMutex.trylock, h]

omit [Fintype Tid] in
theorem owner_unlock {s : Sys Tid} {p q : Path} {t u : Tid}
    (h : (s.unlock p t).owner q = some u) : s.owner q = some u := by
  cases p <;> cases q <;>
    simp only [Sys.unlock, ConditionVar.unlock, Mutex.unlock, PthreadMutex.unlock, Sys.owner]
      at h ⊢
  all_goals first
    | exact h
    | split at h
      · cases h
      · exact h

omit [DecidableEq Tid] [Fintype Tid] in
/-- What stands behind the condition variable's mutex does not matter to the locks. -/
theorem owner_cond {s : Sys Tid} {c : ConditionVar Tid} (h : c.mutex = s.cv.mutex) (p : Path) :
    ({ s with cv := c } : Sys Tid).owner p = s.owner p := by
  cases p
  · rfl
  · simp only [Sys.owner, h]

omit [Fintype Tid] in
theorem mutex_wake {c c' : ConditionVar Tid} {t : Tid} (h : c.wake t = some c') :
    c'.mutex = c.mutex := by
  simp only [ConditionVar.wake, Option.ite_none_right_eq_some, Option.some.injEq] at h
  rw [← h.2]

theorem mutex_signal {c c' : ConditionVar Tid} {w : Option Tid} (h : c.signal w = some c') :
    c'.mutex = c.mutex := by
  cases w with
  | none =>
    simp only [ConditionVar.signal, Option.ite_none_right_eq_some, Option.some.injEq] at h
    rw [h.2]
  | some w => exact mutex_wake h

theorem step_moves {s s' : Sys Tid} {a : Act Tid} (h : step s a = some s') : Moves s s' a := by
  cases a with
  | call t op =>
    simp only [step, Option.ite_none_right_eq_some] at h
    rcases h with ⟨ha, h⟩
    cases op with
    | lock p =>
      rcases lock_cases h with ⟨hn, hp, ho⟩
      exact .inl ⟨p, t, ⟨rfl, rfl, ha, hn⟩, hp, ho⟩
    | trylock p =>
      cases h
      by_cases hn : s.owner p = none
      · exact .inl ⟨p, t, ⟨rfl, rfl, ha, hn⟩, trylock_free t hn⟩
      · rw [trylock_held t hn]
        refine .inr ⟨?_, fun _ _ ho ↦ ho⟩
        rintro _ _ ⟨-, rfl, -, hf⟩
        exact hn hf
    | unlock p =>
      cases h
      exact .inr ⟨fun _ _ hg ↦ hg, fun q u ho ↦ owner_unlock ho⟩
    | wait =>
      cases h
      refine .inr ⟨fun _ _ hg ↦ hg, fun q u ho ↦ ?_⟩
      apply owner_unlock (p := .cond) (t := t)
      cases q <;> exact ho
    | signal w =>
      simp only [Sys.call, Option.map_eq_some_iff] at h
      rcases h with ⟨c, hc, rfl⟩
      refine .inr ⟨fun _ _ hg ↦ hg, fun q u ho ↦ ?_⟩
      rwa [owner_cond (mutex_signal hc)] at ho
    | broadcast =>
      cases h
      refine .inr ⟨fun _ _ hg ↦ hg, fun q u ho ↦ ?_⟩
      rwa [owner_cond (by rfl)] at ho
  | wake t =>
    simp only [step, Option.map_eq_some_iff] at h
    rcases h with ⟨c, hc, rfl⟩
    refine .inr ⟨fun _ _ hg ↦ hg, fun q u ho ↦ ?_⟩
    rwa [owner_cond (mutex_wake hc)] at ho
  | resume t =>
    simp only [step, ConditionVar.resume, Option.map_eq_some_iff,
      Option.ite_none_right_eq_some] at h
    rcases h with ⟨_, ⟨hw, c, hc, rfl⟩, rfl⟩
    have hl : s.lock .cond t = some { s with cv := c } := by
      simp only [Sys.lock, hc, Option.map_some]
    rcases lock_cases hl with ⟨hn, hp, ho⟩
    exact .inl ⟨.cond, t, ⟨rfl, rfl, hw, hn⟩, hp, ho⟩

/-! ### Exclusion -/

/-- At most one thread holds the mutex or the lock of the condition variable. -/
def Exclusive (s : Sys Tid) : Prop :=
  ∀ t u p q, s.owner p = some t → s.owner q = some u → t = u

/-- The step ends with at most one thread in. -/
def Keeps (s : Sys Tid) (a : Act Tid) : Prop := ∀ s', step s a = some s' → Exclusive s'

/-- Whoever gets one of the locks finds the other free, or has it as well. -/
def Careful (s : Sys Tid) (a : Act Tid) : Prop :=
  ∀ p t u, Gets s p t a → s.owner p.other = some u → u = t

/-- The calls that get a lock do not fail. -/
theorem gets_step {s : Sys Tid} {a : Act Tid} {p : Path} {t : Tid} (h : Gets s p t a) :
    ∃ s', step s a = some s' := by
  cases a with
  | call u op =>
    cases op with
    | lock q =>
      rcases h with ⟨rfl, rfl, ha, hn⟩
      simp only [step, ha, if_true]
      exact lock_free u hn
    | trylock q =>
      rcases h with ⟨rfl, rfl, ha, -⟩
      simp only [step, ha, if_true]
      exact ⟨_, rfl⟩
    | unlock | wait | signal | broadcast => exact h.elim
  | wake u => exact h.elim
  | resume u =>
    rcases h with ⟨rfl, rfl, hw, hn⟩
    simp only [Sys.owner] at hn
    simp [step, ConditionVar.resume, hw, ConditionVar.lock, Mutex.lock, PthreadMutex.lock, hn]

omit [DecidableEq Tid] [Fintype Tid] in
/-- A step gets one lock at most. -/
theorem gets_unique {s : Sys Tid} {a : Act Tid} {p q : Path} {t u : Tid} (h : Gets s p t a)
    (h' : Gets s q u a) : p = q ∧ t = u := by
  cases a with
  | call v op =>
    cases op with
    | lock | trylock => exact ⟨h.2.1.symm.trans h'.2.1, h.1.symm.trans h'.1⟩
    | unlock | wait | signal | broadcast => exact h.elim
  | wake v => exact h.elim
  | resume v => exact ⟨h.2.1.trans h'.2.1.symm, h.1.symm.trans h'.1⟩

omit [DecidableEq Tid] [Fintype Tid] in
theorem Path.eq_or_other (p q : Path) : q = p ∨ q = p.other := by
  cases p <;> cases q <;> simp [Path.other]

theorem Exclusive.step {s : Sys Tid} {a : Act Tid} (h : Exclusive s) (hc : Careful s a) :
    Keeps s a := by
  intro s' hs
  rcases step_moves hs with ⟨p, t, hg, hp, ho⟩ | ⟨-, hle⟩
  · have hall : ∀ q u, s'.owner q = some u → u = t := by
      intro q u hu
      rcases Path.eq_or_other p q with rfl | rfl
      · exact Option.some.inj (hu.symm.trans hp)
      · exact hc p t u hg (ho ▸ hu)
    intro u v q r hu hv
    rw [hall q u hu, hall r v hv]
  · intro t u p q ht hu
    exact h t u p q (hle p t ht) (hle q u hu)

theorem keeps_iff {s : Sys Tid} {a : Act Tid} (h : Exclusive s) : Keeps s a ↔ Careful s a := by
  constructor
  · intro hk p t u hg hu
    obtain ⟨s', hs⟩ := gets_step hg
    rcases step_moves hs with ⟨q, v, hg', hq, ho⟩ | ⟨hn, -⟩
    · obtain ⟨rfl, rfl⟩ := gets_unique hg hg'
      exact hk s' hs u t p.other p (ho ▸ hu) hq
    · exact absurd hg (hn p t)
  · exact h.step

omit [DecidableEq Tid] [Fintype Tid] in
theorem exclusive_start {m : Mutex Tid} (hm : m.mutex.owner = none) : Exclusive (start m) := by
  intro t u p q ht hu
  cases p <;> exact absurd (ht.symm.trans hm) (by simp)

theorem along_keeps_iff {m : Mutex Tid} (hm : m.mutex.owner = none) (as : List (Act Tid)) :
    (machine Tid).Along Keeps (start m) as ↔ (machine Tid).Along Careful (start m) as := by
  apply Machine.along_congr (I := Exclusive)
  · intro s a h
    exact keeps_iff h
  · intro s a s' h hc hs
    exact h.step hc s' hs
  · exact exclusive_start hm

/-- Of two threads one may lock the mutex and the other the condition variable, whatever the
mutex. -/
theorem exists_not_exclusive {m : Mutex Tid} (hm : m.mutex.owner = none) (t u : Tid) :
    ∃ s, (machine Tid).run (start m)
      [.call t (.lock .direct), .call u (.lock .cond)] = some s ∧
      s.owner .direct = some t ∧ s.owner .cond = some u := by
  simp [Machine.run, machine, step, start, ConditionVar.ofMutex, Mutex.ofHandle, Mutex.handle,
    Sys.call, Sys.lock, ConditionVar.lock, Mutex.lock, PthreadMutex.lock, hm, Sys.owner]

/-- Runs with one holder at a time are those in which no thread gets a lock while another holds the
other, and not all runs are if there are two threads. -/
theorem exclusive_iff (m : Mutex Tid) (hm : m.mutex.owner = none) :
    (∀ as, (machine Tid).Along Keeps (start m) as ↔ (machine Tid).Along Careful (start m) as) ∧
      ((∀ as, (machine Tid).Along Keeps (start m) as) ↔ ∀ t u : Tid, t = u) := by
  refine ⟨along_keeps_iff hm, ?_, ?_⟩
  · intro h t u
    rcases exists_not_exclusive hm t u with ⟨s, hr, ht, hu⟩
    have hs : Exclusive s :=
      Machine.run_along (fun s a s' _ hk hs ↦ hk s' hs) (exclusive_start hm) (h _) hr
    exact hs t u _ _ ht hu
  · intro h as
    apply Machine.along_of_invariant (I := fun _ ↦ True)
    · intro s a _ s' _ t u p q _ _
      exact h t u
    · intro s a s' _ _
      trivial
    · trivial

theorem exclusive_iff_two :
    (∀ as, (machine (Fin 2)).Along Keeps (start .new) as ↔
      (machine (Fin 2)).Along Careful (start .new) as) ∧
      ((∀ as, (machine (Fin 2)).Along Keeps (start .new) as) ↔ ∀ t u : Fin 2, t = u) :=
  exclusive_iff .new rfl

/-- One thread locks the mutex, the other the condition variable. -/
theorem not_exclusive : ¬(machine (Fin 2)).Along Keeps (start .new)
    [.call 0 (.lock .direct), .call 1 (.lock .cond)] := by
  intro h
  have h1 := (Machine.along_cons rfl).mp h
  have h2 := (Machine.along_cons rfl).mp h1.2
  exact absurd (h2.1 _ rfl 0 1 .direct .cond rfl rfl) (by decide)

end PosixCondVar
end CtrlrFx.Os
