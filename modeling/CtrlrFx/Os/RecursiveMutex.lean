import CtrlrFx.Base.Machine
import CtrlrFx.Base.Words
import Mathlib.Data.Fintype.Fin

/-!
# Recursive mutex

`src/os/generic/RecursiveMutex.cpp`: the owner and its nesting level, guarded by one condition
variable that is signalled when the level drops to 0. What runs between two waits holds the
lock of the condition variable and is one step. A signal wakes one sleeper, and any sleeper may
wake by itself. The level is an `int` of 32 bits that wraps, so that one level too many makes it
negative and opens the mutex to all.
-/

namespace CtrlrFx.Os.RecursiveMutex
open Base

/-- Where a thread is: outside, asleep in `lock`, or woken and about to test the level again. -/
inductive Pc where
  | idle
  | asleep
  | woken
  deriving DecidableEq, Repr

/-- Members of the mutex, `CtrlrFx/os/generic/CtrlrFx/RecursiveMutex.h:19–21`, with the threads
on it. Counted are the calls of `lock` and `trylock` that got the mutex and the calls of
`unlock` that took a level back. -/
structure Sys (Tid : Type) where
  owner : Tid
  level : Int32
  pc : Tid → Pc
  locks : Tid → Nat
  unlocks : Tid → Nat

variable {Tid : Type} [DecidableEq Tid]

namespace Sys

/-- Thread `t` moves to `p`. -/
def moveTo (s : Sys Tid) (t : Tid) (p : Pc) : Sys Tid :=
  { s with pc := Function.update s.pc t p }

/-- A sleeper wakes. -/
def wake (s : Sys Tid) (t : Tid) : Option (Sys Tid) :=
  if s.pc t = .asleep then some (s.moveTo t .woken) else none

/-- Wakes the sleeper `w`, or no one when no one sleeps. -/
def signal [Fintype Tid] (s : Sys Tid) : Option Tid → Option (Sys Tid)
  | some w => s.wake w
  | none => if ∀ t, s.pc t ≠ .asleep then some s else none

/-- `++level_`, and `t` returns with the mutex. -/
def grab (s : Sys Tid) (t : Tid) : Sys Tid :=
  { s with level := s.level + 1, locks := Function.update s.locks t (s.locks t + 1) }.moveTo t .idle

/-- `lock` from its loop test on; `src/os/generic/RecursiveMutex.cpp:23–27`. -/
def loop (s : Sys Tid) (t : Tid) : Sys Tid :=
  if 0 < s.level then s.moveTo t .asleep else { s with owner := t }.grab t

/-- `src/os/generic/RecursiveMutex.cpp:14–28`. -/
def lock (s : Sys Tid) (t : Tid) : Sys Tid :=
  if s.level = 0 then { s with owner := t }.grab t
  else if s.owner ≠ t then s.loop t
  else s.grab t

/-- `trylock`, with its result. It gives up if another thread is inside a call and holds the
lock of the condition variable; `src/os/generic/RecursiveMutex.cpp:36–51`. -/
def trylock (s : Sys Tid) (t : Tid) (busy : Bool) : Bool × Sys Tid :=
  if busy then (false, s)
  else if s.level = 0 then (true, { s with owner := t }.grab t)
  else if s.owner ≠ t then (false, s)
  else (true, s.grab t)

/-- `src/os/generic/RecursiveMutex.cpp:58–66`. -/
def unlock [Fintype Tid] (s : Sys Tid) (t : Tid) (w : Option Tid) : Option (Sys Tid) :=
  if 0 < s.level ∧ s.owner = t then
    let s' := { s with
      level := s.level - 1
      unlocks := Function.update s.unlocks t (s.unlocks t + 1) }
    if s'.level = 0 then s'.signal w else some s'
  else some s

end Sys

/-- Steps of the threads. `w` is the sleeper that the signal in `unlock` wakes, if the step
gets there. -/
inductive Act (Tid : Type) where
  | lock (t : Tid)
  | trylock (t : Tid) (busy : Bool)
  | unlock (t : Tid) (w : Option Tid)
  | resume (t : Tid)
  | spurious (t : Tid)

/-- One step: an idle thread calls, be it the owner or not, a woken thread goes around its
loop, or a sleeper wakes by itself. -/
def step [Fintype Tid] (s : Sys Tid) : Act Tid → Option (Sys Tid)
  | .lock t => if s.pc t = .idle then some (s.lock t) else none
  | .trylock t busy => if s.pc t = .idle then some (s.trylock t busy).2 else none
  | .unlock t w => if s.pc t = .idle then s.unlock t w else none
  | .resume t => if s.pc t = .woken then some (s.loop t) else none
  | .spurious t => s.wake t

/-- A mutex just constructed, `CtrlrFx/os/generic/CtrlrFx/RecursiveMutex.h:24`, which leaves
the owner as the memory has it. -/
def start (owner : Tid) : Sys Tid :=
  { owner := owner, level := 0, pc := fun _ ↦ .idle, locks := fun _ ↦ 0, unlocks := fun _ ↦ 0 }

/-- The mutex and its threads. -/
def machine (Tid : Type) [DecidableEq Tid] [Fintype Tid] : Machine (Sys Tid) (Act Tid) where
  init s := ∃ o, s = start o
  step := step

/-! ### The level counts what the owner has not given back -/

/-- The owner is ahead by the level, and everyone else has given back all it took. -/
structure Ledger (s : Sys Tid) : Prop where
  nonneg : 0 ≤ s.level.toInt
  excess : ∀ t, (s.locks t : Int) = s.unlocks t + if t = s.owner then s.level.toInt else 0

/-- Only the members and the counts matter to the ledger. -/
theorem Ledger.congr {s s' : Sys Tid} (h : Ledger s) (ho : s'.owner = s.owner)
    (hv : s'.level = s.level) (hl : s'.locks = s.locks) (hu : s'.unlocks = s.unlocks) :
    Ledger s' := by
  constructor
  · rw [hv]
    exact h.nonneg
  · intro t
    rw [hl, hu, ho, hv]
    exact h.excess t

theorem ledger_start (o : Tid) : Ledger (start o) := by
  constructor
  · exact Int.le_refl 0
  · intro t
    show (0 : Int) = 0 + if t = o then 0 else 0
    rw [ite_self, Int.add_zero]

theorem ledger_moveTo {s : Sys Tid} (h : Ledger s) (t : Tid) (p : Pc) : Ledger (s.moveTo t p) :=
  h.congr rfl rfl rfl rfl

/-- The owner may take one more level where the level has room for it. -/
theorem ledger_grab {s : Sys Tid} (h : Ledger s) (hc : s.level.toInt + 1 < 2 ^ 31) :
    Ledger (s.grab s.owner) := by
  have hlevel := toInt_succ hc
  apply ledger_moveTo
  constructor
  · show 0 ≤ (s.level + 1).toInt
    have hn := h.nonneg
    omega
  · intro t
    have he := h.excess t
    by_cases ht : t = s.owner
    · subst ht
      rw [if_pos rfl] at he
      simp only [Function.update_self, ↓reduceIte]
      omega
    · rw [if_neg ht] at he
      simp only [Function.update_of_ne ht, if_neg ht]
      exact he

/-- While the level is 0 the mutex may change hands. -/
theorem ledger_own {s : Sys Tid} (h : Ledger s) (h0 : s.level = 0) (t : Tid) :
    Ledger { s with owner := t } := by
  constructor
  · exact h.nonneg
  · intro u
    have he := h.excess u
    simp only [h0, Int32.toInt_zero, ite_self] at he ⊢
    exact he

/-- A thread that finds the level 0 takes the mutex. -/
theorem ledger_take {s : Sys Tid} (h : Ledger s) (h0 : s.level = 0) (t : Tid) :
    Ledger ({ s with owner := t }.grab t) :=
  ledger_grab (ledger_own h h0 t) (by rw [h0]; decide)

theorem Ledger.level_eq_zero {s : Sys Tid} (h : Ledger s) (hn : ¬0 < s.level) : s.level = 0 := by
  rw [int32_pos_iff] at hn
  rw [int32_eq_zero_iff]
  exact Int.le_antisymm (Int.not_lt.mp hn) h.nonneg

theorem ledger_loop {s : Sys Tid} (h : Ledger s) (t : Tid) : Ledger (s.loop t) := by
  unfold Sys.loop
  split
  · exact ledger_moveTo h t _
  · next hn => exact ledger_take h (h.level_eq_zero hn) t

theorem ledger_lock {s : Sys Tid} (h : Ledger s) (t : Tid)
    (hc : s.owner = t → s.level.toInt + 1 < 2 ^ 31) : Ledger (s.lock t) := by
  unfold Sys.lock
  split
  · next h0 => exact ledger_take h h0 t
  · split
    · exact ledger_loop h t
    · next ho =>
      obtain rfl := Decidable.not_not.mp ho
      exact ledger_grab h (hc rfl)

theorem ledger_trylock {s : Sys Tid} (h : Ledger s) (t : Tid) (busy : Bool)
    (hc : busy = false → s.owner = t → s.level.toInt + 1 < 2 ^ 31) :
    Ledger (s.trylock t busy).2 := by
  unfold Sys.trylock
  split
  · exact h
  · next hb =>
    split
    · next h0 => exact ledger_take h h0 t
    · split
      · exact h
      · next ho =>
        obtain rfl := Decidable.not_not.mp ho
        exact ledger_grab h (hc (Bool.not_eq_true _ ▸ hb) rfl)

/-- Waking a sleeper only moves it. -/
theorem wake_cases {s s' : Sys Tid} {t : Tid} (hs : s.wake t = some s') :
    s.pc t = .asleep ∧ s' = s.moveTo t .woken := by
  simp only [Sys.wake, Option.ite_none_right_eq_some, Option.some.injEq] at hs
  exact ⟨hs.1, hs.2.symm⟩

variable [Fintype Tid]

/-- A signal finds no one asleep, or wakes a sleeper. -/
theorem signal_cases {s s' : Sys Tid} {w : Option Tid} (hs : s.signal w = some s') :
    ((∀ t, s.pc t ≠ .asleep) ∧ s' = s) ∨ ∃ t, s.pc t = .asleep ∧ s' = s.moveTo t .woken := by
  cases w with
  | none =>
    simp only [Sys.signal, Option.ite_none_right_eq_some, Option.some.injEq] at hs
    exact .inl ⟨hs.1, hs.2.symm⟩
  | some t => exact .inr ⟨t, wake_cases hs⟩

theorem ledger_signal {s s' : Sys Tid} {w : Option Tid} (h : Ledger s)
    (hs : s.signal w = some s') : Ledger s' := by
  rcases signal_cases hs with ⟨-, rfl⟩ | ⟨t, -, rfl⟩
  · exact h
  · exact ledger_moveTo h t _

theorem ledger_unlock {s s' : Sys Tid} {t : Tid} {w : Option Tid} (h : Ledger s)
    (hs : s.unlock t w = some s') : Ledger s' := by
  unfold Sys.unlock at hs
  split at hs
  · next hc =>
    have hpos := int32_pos_iff.mp hc.1
    have hlevel : (s.level - 1).toInt = s.level.toInt - 1 := toInt_pred (by omega)
    have h' : Ledger { s with
        level := s.level - 1
        unlocks := Function.update s.unlocks t (s.unlocks t + 1) } := by
      constructor
      · show 0 ≤ (s.level - 1).toInt
        omega
      · intro u
        have he := h.excess u
        by_cases hu : u = t
        · subst hu
          rw [if_pos hc.2.symm] at he
          simp only [Function.update_self, if_pos hc.2.symm]
          omega
        · have ho : u ≠ s.owner := fun ho ↦ hu (ho.trans hc.2)
          rw [if_neg ho] at he
          simp only [Function.update_of_ne hu, if_neg ho]
          exact he
    dsimp only at hs
    split at hs
    · exact ledger_signal h' hs
    · cases hs
      exact h'
  · cases hs
    exact h

/-- In this step thread `t` asks for the mutex and gets to look at the owner. -/
def Asks (s : Sys Tid) (t : Tid) : Act Tid → Prop
  | .lock u => u = t ∧ s.pc t = .idle
  | .trylock u busy => u = t ∧ s.pc t = .idle ∧ busy = false
  | _ => False

/-- The owner does not ask for the level that is one too many. -/
def Careful (s : Sys Tid) (a : Act Tid) : Prop := Asks s s.owner a → s.level.toInt + 1 < 2 ^ 31

/-- What a step is. -/
theorem step_cases {s s' : Sys Tid} {a : Act Tid} (hs : step s a = some s') :
    (∃ t, Asks s t a ∧ s' = s.lock t) ∨
      (∃ t busy, (busy = false → Asks s t a) ∧ s' = (s.trylock t busy).2) ∨
      (∃ t w, s.unlock t w = some s') ∨ (∃ t, s' = s.loop t) ∨ ∃ t, s.wake t = some s' := by
  cases a with
  | lock t =>
    simp only [step, Option.ite_none_right_eq_some, Option.some.injEq] at hs
    exact .inl ⟨t, ⟨rfl, hs.1⟩, hs.2.symm⟩
  | trylock t busy =>
    simp only [step, Option.ite_none_right_eq_some, Option.some.injEq] at hs
    exact .inr (.inl ⟨t, busy, fun hb ↦ ⟨rfl, hs.1, hb⟩, hs.2.symm⟩)
  | unlock t w =>
    simp only [step, Option.ite_none_right_eq_some] at hs
    exact .inr (.inr (.inl ⟨t, w, hs.2⟩))
  | resume t =>
    simp only [step, Option.ite_none_right_eq_some, Option.some.injEq] at hs
    exact .inr (.inr (.inr (.inl ⟨t, hs.2.symm⟩)))
  | spurious t => exact .inr (.inr (.inr (.inr ⟨t, hs⟩)))

theorem ledger_step {s s' : Sys Tid} {a : Act Tid} (h : Ledger s) (hc : Careful s a)
    (hs : step s a = some s') : Ledger s' := by
  rcases step_cases hs with ⟨t, ha, rfl⟩ | ⟨t, busy, ha, rfl⟩ | ⟨t, w, hs⟩ | ⟨t, rfl⟩ | ⟨t, hs⟩
  · refine ledger_lock h t fun ho ↦ hc ?_
    rw [ho]
    exact ha
  · refine ledger_trylock h t busy fun hb ho ↦ hc ?_
    rw [ho]
    exact ha hb
  · exact ledger_unlock h hs
  · exact ledger_loop h t
  · rw [(wake_cases hs).2]
    exact ledger_moveTo h t _

/-! ### Wake-ups -/

/-- While the mutex is free and someone sleeps, someone else has been woken to take it. -/
def Wakeful (s : Sys Tid) : Prop :=
  s.level = 0 → (∃ t, s.pc t = .asleep) → ∃ t, s.pc t = .woken

omit [DecidableEq Tid] [Fintype Tid] in
theorem wakeful_of_level {s : Sys Tid} (h : s.level ≠ 0) : Wakeful s :=
  fun h0 ↦ absurd h0 h

omit [Fintype Tid] in
/-- Behind a wake-up there is a woken thread. -/
theorem wakeful_woken (s : Sys Tid) (t : Tid) : Wakeful (s.moveTo t .woken) :=
  fun _ _ ↦ ⟨t, Function.update_self t _ _⟩

omit [Fintype Tid] in
/-- Whoever gets the mutex raises the level. -/
theorem wakeful_grab {s : Sys Tid} (h : 0 ≤ s.level.toInt) (t : Tid) : Wakeful (s.grab t) :=
  wakeful_of_level (succ_ne_zero_of_nonneg h)

omit [Fintype Tid] in
/-- A thread goes to sleep only while the level is not 0. -/
theorem wakeful_loop {s : Sys Tid} (h : Ledger s) (t : Tid) : Wakeful (s.loop t) := by
  unfold Sys.loop
  split
  · next hp =>
    apply wakeful_of_level
    rintro (h0 : s.level = 0)
    rw [h0] at hp
    exact absurd hp (by decide)
  · exact wakeful_grab h.nonneg t

omit [Fintype Tid] in
theorem wakeful_lock {s : Sys Tid} (h : Ledger s) (t : Tid) : Wakeful (s.lock t) := by
  unfold Sys.lock
  split
  · exact wakeful_grab h.nonneg t
  · split
    · exact wakeful_loop h t
    · exact wakeful_grab h.nonneg t

omit [Fintype Tid] in
theorem wakeful_trylock {s : Sys Tid} (h : Ledger s) (hw : Wakeful s) (t : Tid) (busy : Bool) :
    Wakeful (s.trylock t busy).2 := by
  unfold Sys.trylock
  split
  · exact hw
  · split
    · exact wakeful_grab h.nonneg t
    · split
      · exact hw
      · exact wakeful_grab h.nonneg t

/-- The signal at the last unlock finds no one asleep, or wakes someone. -/
theorem wakeful_signal {s s' : Sys Tid} {w : Option Tid} (hs : s.signal w = some s') :
    Wakeful s' := by
  rcases signal_cases hs with ⟨hn, rfl⟩ | ⟨t, -, rfl⟩
  · intro _ ha
    rcases ha with ⟨t, ht⟩
    exact absurd ht (hn t)
  · exact wakeful_woken s t

theorem wakeful_unlock {s s' : Sys Tid} {t : Tid} {w : Option Tid} (hw : Wakeful s)
    (hs : s.unlock t w = some s') : Wakeful s' := by
  unfold Sys.unlock at hs
  split at hs
  · dsimp only at hs
    split at hs
    · exact wakeful_signal hs
    · next hn =>
      cases hs
      exact wakeful_of_level hn
  · cases hs
    exact hw

theorem wakeful_step {s s' : Sys Tid} {a : Act Tid} (h : Ledger s) (hw : Wakeful s)
    (hs : step s a = some s') : Wakeful s' := by
  rcases step_cases hs with ⟨t, -, rfl⟩ | ⟨t, busy, -, rfl⟩ | ⟨t, w, hs⟩ | ⟨t, rfl⟩ | ⟨t, hs⟩
  · exact wakeful_lock h t
  · exact wakeful_trylock h hw t busy
  · exact wakeful_unlock hw hs
  · exact wakeful_loop h t
  · rw [(wake_cases hs).2]
    exact wakeful_woken s t

/-- What holds while no level is too many. -/
structure Inv (s : Sys Tid) : Prop where
  ledger : Ledger s
  wakeful : Wakeful s

omit [Fintype Tid] in
theorem inv_start (o : Tid) : Inv (start o) where
  ledger := ledger_start o
  wakeful := by
    rintro - ⟨t, ht⟩
    cases ht

theorem Inv.step {s s' : Sys Tid} {a : Act Tid} (h : Inv s) (hc : Careful s a)
    (hs : step s a = some s') : Inv s' :=
  ⟨ledger_step h.ledger hc hs, wakeful_step h.ledger h.wakeful hs⟩

/-! ### What the mutex promises -/

/-- Thread `t` has got the mutex more often than it gave it back. -/
def Sys.Holds (s : Sys Tid) (t : Tid) : Prop := s.unlocks t < s.locks t

/-- What the members say about the holder. -/
structure Exclusive (s : Sys Tid) : Prop where
  level_pos_iff : 0 < s.level ↔ ∃ t, s.Holds t
  one_holder : ∀ t u, s.Holds t → s.Holds u → t = u
  owner_eq : ∀ t, s.Holds t → s.owner = t
  level_eq : ∀ t, s.Holds t → s.level.toInt = (s.locks t : Int) - s.unlocks t

omit [Fintype Tid] in
/-- Whoever holds the mutex owns it, by as much as the level says. -/
theorem Ledger.holds_iff {s : Sys Tid} (h : Ledger s) (t : Tid) :
    s.Holds t ↔ t = s.owner ∧ 0 < s.level := by
  have he := h.excess t
  unfold Sys.Holds
  rw [int32_pos_iff]
  by_cases ht : t = s.owner
  · rw [if_pos ht] at he
    constructor
    · intro hlt
      exact ⟨ht, by omega⟩
    · rintro ⟨-, hp⟩
      omega
  · rw [if_neg ht] at he
    constructor
    · intro hlt
      omega
    · rintro ⟨ho, -⟩
      exact absurd ho ht

omit [Fintype Tid] in
theorem Ledger.exclusive {s : Sys Tid} (h : Ledger s) : Exclusive s where
  level_pos_iff := by
    constructor
    · intro hp
      exact ⟨s.owner, (h.holds_iff s.owner).mpr ⟨rfl, hp⟩⟩
    · rintro ⟨t, ht⟩
      exact ((h.holds_iff t).mp ht).2
  one_holder := by
    intro t u ht hu
    rw [((h.holds_iff t).mp ht).1, ((h.holds_iff u).mp hu).1]
  owner_eq := by
    intro t ht
    exact ((h.holds_iff t).mp ht).1.symm
  level_eq := by
    intro t ht
    have he := h.excess t
    rw [if_pos ((h.holds_iff t).mp ht).1] at he
    omega

/-- What the mutex promises of a step: the members tell the one holder and its excess, no one else
can unlock, and no thread is left asleep on a free mutex without one woken to take it. -/
structure Keeps (s : Sys Tid) (a : Act Tid) : Prop where
  exclusive : ∀ s', step s a = some s' → Exclusive s'
  foreign : ∀ t w s', a = .unlock t w → ¬s.Holds t → step s a = some s' → s' = s
  awake : ∀ s', step s a = some s' →
    ¬(s'.level = 0 ∧ (∃ t, s'.pc t = .asleep) ∧ ∀ t, s'.pc t ≠ .woken)

/-- An unlock by a thread that does not hold the mutex changes nothing. -/
theorem Ledger.unlock_foreign {s s' : Sys Tid} {t : Tid} {w : Option Tid} (h : Ledger s)
    (ht : ¬s.Holds t) (hs : step s (.unlock t w) = some s') : s' = s := by
  simp only [step, Option.ite_none_right_eq_some] at hs
  have hu := hs.2
  rw [Sys.unlock, if_neg] at hu
  · cases hu
    rfl
  · rintro ⟨hp, ho⟩
    exact ht ((h.holds_iff t).mpr ⟨ho.symm, hp⟩)

omit [Fintype Tid] in
/-- Its owner does not wait for the mutex. -/
theorem lock_owner {s : Sys Tid} {t : Tid} (h : s.owner = t) : s.lock t = s.grab t := by
  subst h
  rw [Sys.lock, if_neg (not_not.mpr rfl), ite_self]

omit [Fintype Tid] in
theorem trylock_owner {s : Sys Tid} {t : Tid} (h : s.owner = t) :
    s.trylock t false = (true, s.grab t) := by
  subst h
  rw [Sys.trylock, if_neg Bool.false_ne_true, if_neg (not_not.mpr rfl), ite_self]

/-- An owner that asks gets one more level. -/
theorem step_of_asks {s : Sys Tid} {a : Act Tid} (h : Asks s s.owner a) :
    step s a = some (s.grab s.owner) := by
  cases a with
  | lock t =>
    rcases h with ⟨rfl, hp⟩
    rw [step, if_pos hp, lock_owner rfl]
  | trylock t busy =>
    rcases h with ⟨rfl, hp, rfl⟩
    rw [step, if_pos hp, trylock_owner rfl]
  | unlock _ _ | resume _ | spurious _ => exact h.elim

omit [Fintype Tid] in
/-- Behind the level that is one too many the owner holds a mutex that is open to all. -/
theorem Ledger.not_exclusive_grab {s : Sys Tid} (h : Ledger s) (hn : 2 ^ 31 ≤ s.level.toInt + 1) :
    ¬Exclusive (s.grab s.owner) := by
  intro hx
  have he := h.excess s.owner
  rw [if_pos rfl] at he
  have hh : (s.grab s.owner).Holds s.owner := by
    simp only [Sys.Holds, Sys.grab, Sys.moveTo, Function.update_self]
    omega
  have hl := hx.level_eq s.owner hh
  have hlt := Int32.toInt_lt (s.grab s.owner).level
  simp only [Sys.grab, Sys.moveTo, Function.update_self] at hl hlt
  omega

theorem Inv.keeps {s : Sys Tid} {a : Act Tid} (h : Inv s) (hc : Careful s a) : Keeps s a where
  exclusive := by
    intro s' hs
    exact (h.step hc hs).ledger.exclusive
  foreign := by
    rintro t w s' rfl ht hs
    exact h.ledger.unlock_foreign ht hs
  awake := by
    rintro s' hs ⟨h0, ha, hn⟩
    rcases (h.step hc hs).wakeful h0 ha with ⟨t, ht⟩
    exact hn t ht

theorem Inv.keeps_iff {s : Sys Tid} {a : Act Tid} (h : Inv s) : Keeps s a ↔ Careful s a := by
  constructor
  · intro hk ha
    by_contra hn
    exact h.ledger.not_exclusive_grab (Int.not_lt.mp hn) (hk.exclusive _ (step_of_asks ha))
  · exact h.keeps

/-- Along a run the members tell the one holder and its excess, no one else can unlock, and no
thread is left asleep on a free mutex without one woken to take it, exactly if no owner asks for
a level on top of `2 ^ 31 - 1`. -/
theorem recursiveMutex_exclusive_iff (o : Tid) (as : List (Act Tid)) :
    (machine Tid).Along Keeps (start o) as ↔ (machine Tid).Along Careful (start o) as := by
  apply Machine.along_congr (I := Inv)
  · intro s a h
    exact h.keeps_iff
  · intro s a s' h hc hs
    exact h.step hc hs
  · exact inv_start o

/-! ### One level too many -/

/-- Thread `t` has locked a new mutex `n` times. -/
def lockedBy (t : Tid) (n : Nat) : Sys Tid :=
  { start t with level := Int32.ofNat n, locks := Function.update (start t).locks t n }

omit [Fintype Tid] in
theorem lockedBy_zero (t : Tid) : lockedBy t 0 = start t := by
  rw [lockedBy, start, Function.update_eq_self]
  rfl

omit [Fintype Tid] in
theorem grab_lockedBy (t : Tid) (n : Nat) : (lockedBy t n).grab t = lockedBy t (n + 1) := by
  rw [lockedBy, lockedBy, int32_ofNat_succ, Sys.grab, Sys.moveTo]
  simp only [Function.update_self, Function.update_idem]
  congr
  exact Function.update_eq_self t _

theorem run_locks (t : Tid) (m n : Nat) :
    (machine Tid).run (lockedBy t m) (List.replicate n (.lock t)) = some (lockedBy t (m + n)) := by
  induction n generalizing m with
  | zero => rfl
  | succ n ih =>
    have hs : step (lockedBy t m) (.lock t) = some (lockedBy t (m + 1)) := by
      rw [← grab_lockedBy]
      exact step_of_asks (s := lockedBy t m) ⟨rfl, rfl⟩
    rw [List.replicate_succ, Machine.run_cons hs, ih, Nat.add_right_comm, Nat.add_assoc]

/-- Behind `2 ^ 31` nested locks another thread gets the mutex as well. -/
theorem recursiveMutex_not_exclusive :
    ∃ s : Sys (Fin 2), (machine (Fin 2)).run (start 0)
        (List.replicate (2 ^ 31) (.lock 0) ++ [.lock 1]) = some s ∧
      s.Holds 0 ∧ s.Holds 1 ∧ ¬Exclusive s := by
  have hlocks := run_locks (0 : Fin 2) 0 (2 ^ 31)
  rw [lockedBy_zero, Nat.zero_add] at hlocks
  have h0 : (lockedBy (0 : Fin 2) (2 ^ 31)).level ≠ 0 := by decide
  have hneg : ¬0 < (lockedBy (0 : Fin 2) (2 ^ 31)).level := by decide
  have ho : (lockedBy (0 : Fin 2) (2 ^ 31)).owner ≠ 1 := by decide
  have hlock : step (lockedBy (0 : Fin 2) (2 ^ 31)) (.lock 1) =
      some ({ lockedBy (0 : Fin 2) (2 ^ 31) with owner := 1 }.grab 1) := by
    have hp : (lockedBy (0 : Fin 2) (2 ^ 31)).pc 1 = .idle := rfl
    rw [step, if_pos hp, Sys.lock, if_neg h0, if_pos ho, Sys.loop, if_neg hneg]
  have hfirst : ({ lockedBy (0 : Fin 2) (2 ^ 31) with owner := 1 }.grab 1).Holds 0 := by
    change 0 < 2 ^ 31
    decide
  have hsecond : ({ lockedBy (0 : Fin 2) (2 ^ 31) with owner := 1 }.grab 1).Holds 1 := by
    change 0 < 0 + 1
    decide
  refine ⟨_, (Machine.run_append hlocks _).trans (Machine.run_cons hlock), hfirst, hsecond, ?_⟩
  intro h
  exact absurd (h.one_holder 0 1 hfirst hsecond) (by decide)

end CtrlrFx.Os.RecursiveMutex
