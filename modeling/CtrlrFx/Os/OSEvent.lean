import CtrlrFx.Base.Monitor
import Mathlib.Data.Fintype.Fin

/-!
# Events

`src/os/generic/OSEvent.cpp`: a flag behind a condition variable. A thread takes the lock of the
variable, does its part in one step while it holds it, and gives it back; a wait that finds the flag
clear sleeps without the lock. A signal wakes one sleeper, a broadcast all of them, and any sleeper
may wake by itself.
-/

namespace CtrlrFx.Os
open Base Monitor

/-- Members of the event beside the condition variable;
`CtrlrFx/os/generic/CtrlrFx/OSEvent.h:22–23`. -/
structure OSEvent where
  manualReset : Bool
  signaled : Bool
  deriving DecidableEq, Repr

namespace OSEvent

/-- Calls a thread may make. -/
inductive Op where
  | wait
  | timedWait
  | trywait
  | signal
  | reset
  deriving DecidableEq, Repr

/-- Where a thread is: outside, about to lock, under the lock, asleep, woken, woken too late, or
about to unlock and return. A sleeper may have a limit of time. -/
inductive Pc where
  | idle
  | lock (op : Op)
  | body (op : Op)
  | asleep (timed : Bool)
  | woken (timed : Bool)
  | expired
  | unlock
  deriving DecidableEq, Repr

/-- Where a thread holds the lock. -/
def Inside : Pc → Prop
  | .body _ | .unlock => True
  | _ => False

/-- The event with its history: whether it was created signaled, whether it was signaled, by its
constructor or by `signal`, and not reset since, and how many calls of `signal` there were and how
many waits succeeded. -/
structure Log where
  ev : OSEvent
  created : Bool
  set : Bool
  signals : Nat
  wins : Nat
  deriving DecidableEq, Repr

namespace Log

/-- Behind the loop of a wait; `src/os/generic/OSEvent.cpp:18–19,32–33`. -/
def pass (l : Log) : Log :=
  { l with
    ev := if l.ev.manualReset then l.ev else { l.ev with signaled := false }
    wins := l.wins + 1 }

/-- `src/os/generic/OSEvent.cpp:45–48`. -/
def trywait (l : Log) : Log :=
  { l with ev := { l.ev with signaled := false }, wins := l.wins + l.ev.signaled.toNat }

/-- `src/os/generic/OSEvent.cpp:56`. -/
def signal (l : Log) : Log :=
  { l with ev := { l.ev with signaled := true }, set := true, signals := l.signals + 1 }

/-- `src/os/generic/OSEvent.cpp:69`. -/
def reset (l : Log) : Log := { l with ev := { l.ev with signaled := false }, set := false }

end Log

/-- The event and its threads. -/
structure Sys (Tid : Type) where
  thr : Threads Tid Pc
  log : Log

variable {Tid : Type}

/-- An event just constructed; `CtrlrFx/os/generic/CtrlrFx/OSEvent.h:56–59`. -/
def start (manualReset signaled : Bool) : Sys Tid where
  thr := { holder := none, pc := fun _ ↦ .idle }
  log := { ev := { manualReset, signaled }, created := signaled, set := signaled, signals := 0
           wins := 0 }

namespace Sys

/-- Every sleeper wakes. -/
def broadcast (s : Sys Tid) : Sys Tid :=
  { s with thr := { s.thr with
    pc := fun t ↦ match s.thr.pc t with
      | .asleep timed => .woken timed
      | p => p } }

variable [DecidableEq Tid]

/-- A wait under the lock; `src/os/generic/OSEvent.cpp:15–19,28–35`. -/
def wait (s : Sys Tid) (t : Tid) (timed : Bool) : Sys Tid :=
  if s.log.ev.signaled then { thr := s.thr.move t .unlock, log := s.log.pass }
  else { s with thr := s.thr.leave t (.asleep timed) }

/-- A sleeper wakes. -/
def wake (s : Sys Tid) (t : Tid) : Option (Sys Tid) :=
  match s.thr.pc t with
  | .asleep timed => some { s with thr := s.thr.move t (.woken timed) }
  | _ => none

/-- A sleeper has slept for as long as it wanted. -/
def expire (s : Sys Tid) (t : Tid) : Option (Sys Tid) :=
  if s.thr.pc t = .asleep true then some { s with thr := s.thr.move t .expired } else none

/-- Takes the lock if it is free. -/
def enter (s : Sys Tid) (t : Tid) (p : Pc) : Option (Sys Tid) :=
  if s.thr.holder = none then some { s with thr := s.thr.enter t p } else none

variable [Fintype Tid]

/-- Wakes the sleeper `w`, or no one when no one sleeps. -/
def notify (s : Sys Tid) : Option Tid → Option (Sys Tid)
  | some w => s.wake w
  | none => if ∀ t timed, s.thr.pc t ≠ .asleep timed then some s else none

/-- `signal` under the lock; `src/os/generic/OSEvent.cpp:56–61`. -/
def signal (s : Sys Tid) (t : Tid) (w : Option Tid) : Option (Sys Tid) :=
  let s' : Sys Tid := { thr := s.thr.move t .unlock, log := s.log.signal }
  if s.log.ev.manualReset then some s'.broadcast else s'.notify w

/-- The next step of thread `t`. `trywait` gives up where the others wait for the lock. `w` is the
sleeper that a signal wakes. -/
def go (s : Sys Tid) (t : Tid) (w : Option Tid) : Option (Sys Tid) :=
  match s.thr.pc t with
  | .idle | .asleep _ => none
  | .lock .trywait =>
    if s.thr.holder = none then some { s with thr := s.thr.enter t (.body .trywait) }
    else some { s with thr := s.thr.move t .idle }
  | .lock op => s.enter t (.body op)
  | .body .wait => some (s.wait t false)
  | .body .timedWait => some (s.wait t true)
  | .body .trywait => some { thr := s.thr.move t .unlock, log := s.log.trywait }
  | .body .signal => s.signal t w
  | .body .reset => some { thr := s.thr.move t .unlock, log := s.log.reset }
  | .woken timed => s.enter t (.body (if timed then .timedWait else .wait))
  | .expired => s.enter t .unlock
  | .unlock => some { s with thr := s.thr.leave t .idle }

end Sys

/-- Steps of the threads: an idle one makes a call, a thread goes on, or a sleeper wakes by itself
or because its time is over. -/
inductive Act (Tid : Type) where
  | call (t : Tid) (op : Op)
  | go (t : Tid) (w : Option Tid)
  | spurious (t : Tid)
  | expire (t : Tid)

variable [DecidableEq Tid] [Fintype Tid]

/-- One step. -/
def step (s : Sys Tid) : Act Tid → Option (Sys Tid)
  | .call t op =>
    if s.thr.pc t = .idle then some { s with thr := s.thr.move t (.lock op) } else none
  | .go t w => s.go t w
  | .spurious t => s.wake t
  | .expire t => s.expire t

/-- The event and its threads as a machine. -/
def machine (Tid : Type) [DecidableEq Tid] [Fintype Tid] : Machine (Sys Tid) (Act Tid) where
  init s := ∃ manualReset signaled, s = start manualReset signaled
  step := step

/-! ### What a step does -/

omit [Fintype Tid] in
theorem wake_cases {s s' : Sys Tid} {t : Tid} (h : s.wake t = some s') :
    ∃ timed, s.thr.pc t = .asleep timed ∧ s' = { s with thr := s.thr.move t (.woken timed) } := by
  unfold Sys.wake at h
  split at h
  · next timed hp => exact ⟨timed, hp, (Option.some.inj h).symm⟩
  · cases h

omit [Fintype Tid] in
theorem enter_cases {s s' : Sys Tid} {t : Tid} {p : Pc} (h : s.enter t p = some s') :
    s.thr.holder = none ∧ s' = { s with thr := s.thr.enter t p } := by
  simp only [Sys.enter, Option.ite_none_right_eq_some, Option.some.injEq] at h
  exact ⟨h.1, h.2.symm⟩

omit [Fintype Tid] in
theorem fits_wake {s s' : Sys Tid} {t : Tid} (hf : s.thr.Fits Inside) (h : s.wake t = some s') :
    s'.thr.Fits Inside ∧ s'.log = s.log := by
  rcases wake_cases h with ⟨timed, hp, rfl⟩
  exact ⟨hf.move (by simp [hp, Inside]), rfl⟩

omit [Fintype Tid] in
theorem fits_enter {s s' : Sys Tid} {t : Tid} {p : Pc} (hf : s.thr.Fits Inside)
    (h : s.enter t p = some s') (hp : Inside p) : s'.thr.Fits Inside ∧ s'.log = s.log := by
  rcases enter_cases h with ⟨hn, rfl⟩
  exact ⟨hf.enter hn hp, rfl⟩

omit [DecidableEq Tid] [Fintype Tid] in
theorem fits_broadcast {s : Sys Tid} (hf : s.thr.Fits Inside) : s.broadcast.thr.Fits Inside := by
  apply hf.map
  intro t
  split
  · next hp => simp [hp, Inside]
  · rfl

theorem fits_signal {s s' : Sys Tid} {t : Tid} {w : Option Tid} (hf : s.thr.Fits Inside)
    (hp : s.thr.pc t = .body .signal) (h : s.signal t w = some s') :
    s'.thr.Fits Inside ∧ s'.log = s.log.signal := by
  have hm : (s.thr.move t .unlock).Fits Inside := hf.move (by simp [hp, Inside])
  unfold Sys.signal at h
  dsimp only at h
  split at h
  · cases h
    exact ⟨fits_broadcast (s := ⟨s.thr.move t .unlock, s.log.signal⟩) hm, rfl⟩
  · cases w with
    | none =>
      simp only [Sys.notify, Option.ite_none_right_eq_some, Option.some.injEq] at h
      rcases h with ⟨-, rfl⟩
      exact ⟨hm, rfl⟩
    | some w => exact fits_wake (s := ⟨s.thr.move t .unlock, s.log.signal⟩) hm h

/-- A step leaves the lock with those that hold it, and does one of five things to the event. -/
theorem go_cases {s s' : Sys Tid} {t : Tid} {w : Option Tid} (hf : s.thr.Fits Inside)
    (h : s.go t w = some s') :
    s'.thr.Fits Inside ∧ (s'.log = s.log ∨ s.log.ev.signaled = true ∧ s'.log = s.log.pass ∨
      s.thr.pc t = .body .trywait ∧ s'.log = s.log.trywait ∨ s'.log = s.log.signal ∨
      s'.log = s.log.reset) := by
  have hwait : ∀ timed, Inside (s.thr.pc t) → s.wait t timed = s' →
      s'.thr.Fits Inside ∧ (s'.log = s.log ∨ s.log.ev.signaled = true ∧ s'.log = s.log.pass) := by
    rintro timed hin rfl
    unfold Sys.wait
    split
    · next hs => exact ⟨hf.move (iff_of_true trivial hin), .inr ⟨hs, rfl⟩⟩
    · exact ⟨hf.leave hin (by simp [Inside]), .inl rfl⟩
  unfold Sys.go at h
  split at h
  · cases h
  · cases h
  · next hp =>
    split at h
    · next hn =>
      cases h
      exact ⟨hf.enter hn trivial, .inl rfl⟩
    · cases h
      exact ⟨hf.move (by simp [hp, Inside]), .inl rfl⟩
  · rcases fits_enter hf h trivial with ⟨hf', hl⟩
    exact ⟨hf', .inl hl⟩
  · next hp =>
    rcases hwait false (by simp [hp, Inside]) (Option.some.inj h) with ⟨hf', hl | hl⟩
    · exact ⟨hf', .inl hl⟩
    · exact ⟨hf', .inr (.inl hl)⟩
  · next hp =>
    rcases hwait true (by simp [hp, Inside]) (Option.some.inj h) with ⟨hf', hl | hl⟩
    · exact ⟨hf', .inl hl⟩
    · exact ⟨hf', .inr (.inl hl)⟩
  · next hp =>
    cases h
    exact ⟨hf.move (by simp [hp, Inside]), .inr (.inr (.inl ⟨hp, rfl⟩))⟩
  · next hp =>
    rcases fits_signal hf hp h with ⟨hf', hl⟩
    exact ⟨hf', .inr (.inr (.inr (.inl hl)))⟩
  · next hp =>
    cases h
    exact ⟨hf.move (by simp [hp, Inside]), .inr (.inr (.inr (.inr rfl)))⟩
  · rcases fits_enter hf h trivial with ⟨hf', hl⟩
    exact ⟨hf', .inl hl⟩
  · rcases fits_enter hf h trivial with ⟨hf', hl⟩
    exact ⟨hf', .inl hl⟩
  · next hp =>
    cases h
    exact ⟨hf.leave (by simp [hp, Inside]) (by simp [Inside]), .inl rfl⟩

theorem step_cases {s s' : Sys Tid} {a : Act Tid} (hf : s.thr.Fits Inside)
    (h : step s a = some s') :
    s'.thr.Fits Inside ∧ (s'.log = s.log ∨ s.log.ev.signaled = true ∧ s'.log = s.log.pass ∨
      (∃ t w, a = .go t w ∧ s.thr.pc t = .body .trywait) ∧ s'.log = s.log.trywait ∨
      s'.log = s.log.signal ∨ s'.log = s.log.reset) := by
  cases a with
  | call t op =>
    simp only [step, Option.ite_none_right_eq_some, Option.some.injEq] at h
    rcases h with ⟨hp, rfl⟩
    exact ⟨hf.move (by simp [hp, Inside]), .inl rfl⟩
  | go t w =>
    rcases go_cases hf h with ⟨hf', hl | hl | ⟨hp, hl⟩ | hl⟩
    · exact ⟨hf', .inl hl⟩
    · exact ⟨hf', .inr (.inl hl)⟩
    · exact ⟨hf', .inr (.inr (.inl ⟨⟨t, w, rfl, hp⟩, hl⟩))⟩
    · exact ⟨hf', .inr (.inr (.inr hl))⟩
  | spurious t =>
    rcases fits_wake hf h with ⟨hf', hl⟩
    exact ⟨hf', .inl hl⟩
  | expire t =>
    simp only [step, Sys.expire, Option.ite_none_right_eq_some, Option.some.injEq] at h
    rcases h with ⟨hp, rfl⟩
    exact ⟨hf.move (by simp [hp, Inside]), .inl rfl⟩

/-! ### The reset modes -/

/-- Calls that may succeed or not. -/
def Op.Acquires : Op → Prop
  | .wait | .timedWait | .trywait => True
  | _ => False

/-- With no thread in a call, the next call of this kind succeeds. -/
def Satisfies (s : Sys Tid) (op : Op) : Prop :=
  ∀ t, ∃ s', (machine Tid).run s [.call t op, .go t none, .go t none, .go t none] = some s' ∧
    s'.thr.pc t = .idle ∧ s'.log.wins = s.log.wins + 1

/-- What a step promises. In manual mode the event stays signaled from a signal to the next reset,
and whatever is attempted in between succeeds. In the other mode there are no more successes than
signals. Whoever comes next to an event that is signaled, and on which no one is, succeeds. -/
structure Obeys (s : Sys Tid) (a : Act Tid) (s' : Sys Tid) : Prop where
  stays : s.log.ev.manualReset = true → s'.log.set = true → s'.log.ev.signaled = true
  succeeds : s.log.ev.manualReset = true → s.log.set = true → ∀ t w op, a = .go t w →
    s.thr.pc t = .body op → op.Acquires → s'.log.wins = s.log.wins + 1
  counted : s.log.ev.manualReset = false →
    s'.log.wins ≤ s'.log.signals + s'.log.created.toNat
  satisfies : (∀ t, s'.thr.pc t = .idle) → s'.log.ev.signaled = true → ∀ op : Op,
    op.Acquires → Satisfies s' op

/-- Every step that is taken keeps its promises. -/
def Keeps (s : Sys Tid) (a : Act Tid) : Prop := ∀ s', step s a = some s' → Obeys s a s'

/-- No `trywait` is under the lock of an event that is in manual mode and signaled. -/
def Careful (s : Sys Tid) (a : Act Tid) : Prop :=
  s.log.ev.manualReset = true → s.log.ev.signaled = true → ∀ t w, a = .go t w →
    s.thr.pc t ≠ .body .trywait

/-- In manual mode the flag tells whether there was a signal since the last reset, in the other it
is one of the signals, not yet taken. -/
structure Account (s : Sys Tid) : Prop where
  fits : s.thr.Fits Inside
  manual : s.log.ev.manualReset = true → s.log.set = s.log.ev.signaled
  auto : s.log.ev.manualReset = false →
    s.log.wins + s.log.ev.signaled.toNat ≤ s.log.signals + s.log.created.toNat

omit [DecidableEq Tid] [Fintype Tid] in
theorem account_start (manualReset signaled : Bool) :
    Account (start manualReset signaled : Sys Tid) where
  fits := Threads.fits_start (by simp [Inside])
  manual := fun _ ↦ rfl
  auto := fun _ ↦ Nat.le_refl _

/-- No step changes the mode. -/
theorem manualReset_step {s s' : Sys Tid} {a : Act Tid} (hf : s.thr.Fits Inside)
    (hs : step s a = some s') : s'.log.ev.manualReset = s.log.ev.manualReset := by
  rcases step_cases hf hs with ⟨-, hl | ⟨-, hl⟩ | ⟨-, hl⟩ | hl | hl⟩
  · rw [hl]
  · cases hm : s.log.ev.manualReset <;> simp [hl, Log.pass, hm]
  · rw [hl]
    rfl
  · rw [hl]
    rfl
  · rw [hl]
    rfl

/-- The log alone carries the account. -/
theorem account_step {s s' : Sys Tid} {a : Act Tid} (h : Account s) (hc : Careful s a)
    (hs : step s a = some s') : Account s' := by
  have hmode := manualReset_step h.fits hs
  rcases step_cases h.fits hs with ⟨hf, hl | ⟨hsig, hl⟩ | ⟨⟨t, w, rfl, hp⟩, hl⟩ | hl | hl⟩
  · refine ⟨hf, ?_, ?_⟩
    · rw [hl]
      exact h.manual
    · rw [hl]
      exact h.auto
  · refine ⟨hf, ?_, ?_⟩ <;> rw [hmode] <;> intro hm
    · simp [hl, Log.pass, hm, h.manual hm]
    · have ha := h.auto hm
      rw [hsig, Bool.toNat_true] at ha
      simp only [hl, Log.pass, hm, Bool.false_eq_true, if_false, Bool.toNat_false]
      omega
  · refine ⟨hf, ?_, ?_⟩ <;> rw [hmode] <;> intro hm
    · have hclear : s.log.ev.signaled = false := by
        cases hsig : s.log.ev.signaled with
        | false => rfl
        | true => exact absurd hp (hc hm hsig t w rfl)
      simp [hl, Log.trywait, h.manual hm, hclear]
    · have ha := h.auto hm
      simp only [hl, Log.trywait, Bool.toNat_false]
      omega
  · refine ⟨hf, ?_, ?_⟩ <;> rw [hmode] <;> intro hm
    · rw [hl]
      rfl
    · have ha := h.auto hm
      simp only [hl, Log.signal, Bool.toNat_true]
      omega
  · refine ⟨hf, ?_, ?_⟩ <;> rw [hmode] <;> intro hm
    · rw [hl]
      rfl
    · have ha := h.auto hm
      simp only [hl, Log.reset, Bool.toNat_false]
      omega

/-- A call that has the lock and finds the flag set succeeds. -/
theorem wins_body {s s' : Sys Tid} {t : Tid} {w : Option Tid} {op : Op}
    (hp : s.thr.pc t = .body op) (ho : op.Acquires) (hs : s.log.ev.signaled = true)
    (h : s.go t w = some s') : s'.log.wins = s.log.wins + 1 := by
  unfold Sys.go at h
  rw [hp] at h
  cases op with
  | wait | timedWait =>
    simp only [Sys.wait, hs, if_true, Option.some.injEq] at h
    rw [← h]
    rfl
  | trywait =>
    simp only [Option.some.injEq] at h
    rw [← h]
    simp [Log.trywait, hs]
  | signal | reset => exact ho.elim

/-- With no one else around the four steps of a call run through. -/
theorem satisfies_of_idle {s : Sys Tid} {op : Op} (hf : s.thr.Fits Inside)
    (hi : ∀ t, s.thr.pc t = .idle) (hs : s.log.ev.signaled = true) (ho : op.Acquires) :
    Satisfies s op := by
  intro t
  have hn : s.thr.holder = none := hf.free (by simp [hi, Inside])
  cases op with
  | wait | timedWait =>
    simp [Machine.run, machine, step, Sys.go, Sys.enter, Sys.wait, hi, hn, hs, Log.pass]
  | trywait => simp [Machine.run, machine, step, Sys.go, hi, hn, hs, Log.trywait]
  | signal | reset => exact ho.elim

theorem Account.keeps {s : Sys Tid} {a : Act Tid} (h : Account s) (hc : Careful s a) :
    Keeps s a := by
  intro s' hs
  have h' : Account s' := account_step h hc hs
  have hmode := manualReset_step h.fits hs
  constructor
  · intro hm hset
    rw [← h'.manual (hmode.trans hm)]
    exact hset
  · rintro hm hset t w op rfl hp ho
    rw [h.manual hm] at hset
    exact wins_body hp ho hset hs
  · intro hm
    have ha := h'.auto (hmode.trans hm)
    omega
  · intro hi hsig op ho
    exact satisfies_of_idle h'.fits hi hsig ho

/-- A `trywait` that clears the flag breaks the first promise at once. -/
theorem Account.keeps_iff {s : Sys Tid} {a : Act Tid} (h : Account s) :
    Keeps s a ↔ Careful s a := by
  constructor
  · rintro hk hm hsig t w rfl hp
    have hs : step s (.go t w) = some ⟨s.thr.move t .unlock, s.log.trywait⟩ := by
      simp only [step, Sys.go, hp]
    have hset : s.log.set = true := (h.manual hm).trans hsig
    exact absurd ((hk _ hs).stays hm hset) (by simp [Log.trywait])
  · exact h.keeps

/-- Each step of a run keeps its promises exactly if no `trywait` comes to an event in manual mode
while it is signaled. -/
theorem osEvent_keeps_iff (manualReset signaled : Bool) (as : List (Act Tid)) :
    (machine Tid).Along Keeps (start manualReset signaled) as ↔
      (machine Tid).Along Careful (start manualReset signaled) as := by
  apply Machine.along_congr (I := Account)
  · intro s a h
    exact h.keeps_iff
  · intro s a s' h hc hs
    exact account_step h hc hs
  · exact account_start manualReset signaled

/-- A manual event, created signaled, that a `trywait` clears. -/
theorem not_osEvent_keeps : ¬(machine (Fin 1)).Along Keeps (start true true)
    [.call 0 .trywait, .go 0 none, .go 0 none] := by
  intro h
  have h1 := (Machine.along_cons rfl).mp h
  have h2 := (Machine.along_cons rfl).mp h1.2
  have h3 := (Machine.along_cons rfl).mp h2.2
  exact absurd ((h3.1 _ rfl).stays rfl rfl) (by decide)

/-- In the other mode every run is careful. -/
theorem careful_auto (signaled : Bool) (as : List (Act Tid)) :
    (machine Tid).Along Careful (start false signaled) as := by
  apply Machine.along_of_invariant
    (I := fun s ↦ s.thr.Fits Inside ∧ s.log.ev.manualReset = false)
  · intro s a h hm
    rw [h.2] at hm
    cases hm
  · intro s a s' h hs
    exact ⟨(step_cases h.1 hs).1, (manualReset_step h.1 hs).trans h.2⟩
  · exact ⟨Threads.fits_start (by simp [Inside]), rfl⟩

end OSEvent
end CtrlrFx.Os
