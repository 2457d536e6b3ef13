import CtrlrFx.Base.Machine
import Mathlib.Logic.Function.Basic

/-!
# Threads around a lock

A lock that one thread at a time may hold, with a place for each thread. The places of a program
say whether a thread there holds the lock; that they agree with the lock is kept by moves between
places of one kind, by entering a free lock and by leaving it.
-/

namespace CtrlrFx.Base.Monitor

universe u v

/-- Who holds the lock, and where the threads are. -/
structure Threads (ι : Type u) (π : Type v) where
  holder : Option ι
  pc : ι → π

namespace Threads

variable {ι : Type u} {π : Type v}

/-- The threads at the places where the lock is held are those that hold it. -/
def Fits (inside : π → Prop) (s : Threads ι π) : Prop :=
  ∀ t, s.holder = some t ↔ inside (s.pc t)

variable {inside : π → Prop} {s : Threads ι π}

theorem Fits.holds (h : s.Fits inside) {t : ι} (ht : inside (s.pc t)) : s.holder = some t :=
  (h t).mpr ht

/-- Two threads at such places are one. -/
theorem Fits.unique (h : s.Fits inside) {t u : ι} (ht : inside (s.pc t)) (hu : inside (s.pc u)) :
    t = u :=
  Option.some.inj ((h.holds ht).symm.trans (h.holds hu))

/-- While no thread is at such a place, the lock is free. -/
theorem Fits.free (h : s.Fits inside) (hn : ∀ t, ¬inside (s.pc t)) : s.holder = none := by
  cases hs : s.holder with
  | none => rfl
  | some t => exact absurd ((h t).mp hs) (hn t)

theorem fits_start {p : π} (hp : ¬inside p) :
    Fits inside { holder := none, pc := fun _ : ι ↦ p } := by
  intro t
  exact iff_of_false (by simp) hp

/-- Moves that take no thread over the threshold. -/
theorem Fits.map (h : s.Fits inside) {pc : ι → π} (hp : ∀ t, inside (pc t) ↔ inside (s.pc t)) :
    Fits inside { s with pc := pc } := by
  intro t
  exact (h t).trans (hp t).symm

variable [DecidableEq ι]

/-- Thread `t` goes to `p`. -/
def move (s : Threads ι π) (t : ι) (p : π) : Threads ι π :=
  { s with pc := Function.update s.pc t p }

/-- Thread `t` takes the lock and goes to `p`. -/
def enter (s : Threads ι π) (t : ι) (p : π) : Threads ι π :=
  { holder := some t, pc := Function.update s.pc t p }

/-- Thread `t` gives the lock back and goes to `p`. -/
def leave (s : Threads ι π) (t : ι) (p : π) : Threads ι π :=
  { holder := none, pc := Function.update s.pc t p }

@[simp] theorem holder_move (s : Threads ι π) (t : ι) (p : π) : (s.move t p).holder = s.holder :=
  rfl

@[simp] theorem holder_enter (s : Threads ι π) (t : ι) (p : π) : (s.enter t p).holder = some t :=
  rfl

@[simp] theorem holder_leave (s : Threads ι π) (t : ι) (p : π) : (s.leave t p).holder = none := rfl

@[simp] theorem pc_move (s : Threads ι π) (t : ι) (p : π) :
    (s.move t p).pc = Function.update s.pc t p := rfl

@[simp] theorem pc_enter (s : Threads ι π) (t : ι) (p : π) :
    (s.enter t p).pc = Function.update s.pc t p := rfl

@[simp] theorem pc_leave (s : Threads ι π) (t : ι) (p : π) :
    (s.leave t p).pc = Function.update s.pc t p := rfl

theorem Fits.move (h : s.Fits inside) {t : ι} {p : π} (hp : inside p ↔ inside (s.pc t)) :
    (s.move t p).Fits inside := by
  apply h.map
  intro u
  by_cases hu : u = t
  · subst hu
    rw [Function.update_self]
    exact hp
  · rw [Function.update_of_ne hu]

theorem Fits.enter (h : s.Fits inside) (hs : s.holder = none) {t : ι} {p : π} (hp : inside p) :
    (s.enter t p).Fits inside := by
  intro u
  rw [holder_enter, pc_enter]
  by_cases hu : u = t
  · subst hu
    rw [Function.update_self]
    exact iff_of_true rfl hp
  · rw [Function.update_of_ne hu, ← h u, hs]
    exact iff_of_false (fun he ↦ hu (Option.some.inj he).symm) (by simp)

theorem Fits.leave (h : s.Fits inside) {t : ι} {p : π} (ht : inside (s.pc t)) (hp : ¬inside p) :
    (s.leave t p).Fits inside := by
  intro u
  rw [holder_leave, pc_leave]
  by_cases hu : u = t
  · subst hu
    rw [Function.update_self]
    exact iff_of_false (by simp) hp
  · rw [Function.update_of_ne hu]
    exact iff_of_false (by simp) fun hi ↦ hu (h.unique hi ht)

end Threads
end CtrlrFx.Base.Monitor
