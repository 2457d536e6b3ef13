import CtrlrFx.Base.Machine

/-!
# Thread timer

`src/os/generic/ThreadTimer.cpp`: a thread that waits for the timer to be started, sleeps until
the first deadline, and then calls its client and sleeps until the next deadline for as long as
the timer runs. The members are guarded by the lock of a condition variable, which the thread
gives up only in its three waits, and any wait may return at any time. Clients start and stop
the timer while the thread does not hold the lock. Time is discrete, and a callback does not
call the timer.
-/

namespace CtrlrFx.Os.ThreadTimer
open Base

/-- Calls of the clients. The three overloads of `start` take no times, a period, or a delay
and a period. -/
inductive Call where
  | start
  | startPeriod (period : Nat)
  | startDelay (initDelay period : Nat)
  | oneShot (timeout : Nat)
  | stop
  | quit
  deriving DecidableEq, Repr

/-- What the history keeps: calls with the time, the flag `run_` as they found it and the delay
and the period as they left them, and the times at which `on_timer` was called. -/
inductive Event where
  | call (c : Call) (running : Bool) (initDelay period time : Nat)
  | tick (time : Nat)
  deriving DecidableEq, Repr

/-- Where the thread is in `run`: not there yet, at the loop around the wait for a start, in
that wait, in the wait for the first deadline, at the test of the inner loop, in `on_timer`, in
the wait for the next deadline, or done. -/
inductive Pc where
  | outside
  | idling
  | waiting
  | delaying (t : Nat)
  | testing (t : Nat)
  | calling (t : Nat)
  | pacing (t : Nat)
  | done
  deriving DecidableEq, Repr

/-- Whether the thread holds the lock. -/
def Pc.locked : Pc → Bool
  | .idling | .testing _ | .calling _ => true
  | _ => false

/-- The deadline of a wait that has one. -/
def Pc.deadline : Pc → Option Nat
  | .delaying t | .pacing t => some t
  | _ => none

/-- Members of the timer, `CtrlrFx/os/generic/CtrlrFx/ThreadTimer.h:24–28`, and its base
class's flag `quit_`, with the place of the thread, the time and the history, newest first. -/
structure Sys where
  initDelay : Nat
  period : Nat
  run : Bool
  quit : Bool
  pc : Pc
  now : Nat
  log : List Event
  deriving DecidableEq, Repr

/-- Whether a call is one of `start` or `one_shot`. -/
def Call.restarts : Call → Bool
  | .stop | .quit => false
  | _ => true

namespace Sys

/-- `src/os/generic/ThreadTimer.cpp:30–36`. -/
def doStart (s : Sys) : Sys := if !s.run then { s with run := true } else s

/-- The calls of the clients; `src/os/generic/ThreadTimer.cpp:42–99`. The signals only make a
wait return, which it may do in any case. -/
def call (s : Sys) : Call → Sys
  | .start => s.doStart
  | .startPeriod period => { s with initDelay := period, period := period }.doStart
  | .startDelay initDelay period => { s with initDelay := initDelay, period := period }.doStart
  | .oneShot timeout =>
    if !s.run then { s with initDelay := timeout, period := 0, run := true } else s
  | .stop => { s with run := false }
  | .quit => { s with quit := true, run := false }

/-- A call with its record. -/
def recordCall (s : Sys) (c : Call) : Sys :=
  { s.call c with
    log := .call c s.run (s.call c).initDelay (s.call c).period s.now :: s.log }

/-- The thread holds the lock and goes on to the next wait or call;
`src/os/generic/ThreadTimer.cpp:113–141`. -/
def go (s : Sys) : Option Sys :=
  match s.pc with
  | .outside => some { s with pc := .idling }
  | .idling =>
    if s.quit then some { s with pc := .done }
    else if !s.run then some { s with pc := .waiting }
    else if s.initDelay ≠ 0 then some { s with pc := .delaying (s.now + s.initDelay) }
    else some { s with pc := .testing s.now }
  | .testing t =>
    if s.run && !s.quit then some { s with pc := .calling t, log := .tick s.now :: s.log }
    else some { s with pc := .idling }
  | .calling t =>
    if s.period = 0 then some { s with run := false, pc := .testing t }
    else some { s with pc := .pacing (t + s.period) }
  | _ => none

/-- A wait returns, for whatever reason. -/
def wake (s : Sys) : Option Sys :=
  match s.pc with
  | .waiting => some { s with pc := .idling }
  | .delaying t => some { s with pc := .testing t }
  | .pacing t => some { s with pc := .testing t }
  | _ => none

end Sys

/-- Steps: a client calls, the thread goes on or its wait returns, or time passes. -/
inductive Act where
  | call (c : Call)
  | go
  | wake
  | pass (d : Nat)
  deriving DecidableEq, Repr

/-- One step. -/
def step (s : Sys) : Act → Option Sys
  | .call c => if s.pc.locked then none else some (s.recordCall c)
  | .go => s.go
  | .wake => s.wake
  | .pass d => some { s with now := s.now + d }

/-- A timer just constructed, `src/os/generic/ThreadTimer.cpp:10–14`, at some time. -/
def start (now : Nat) : Sys :=
  { initDelay := 0, period := 0, run := false, quit := false, pc := .outside, now := now,
    log := [] }

/-- The timer with its thread and its clients. -/
def machine : Machine Sys Act where
  init s := ∃ now, s = start now
  step := step

/-! ### What a step does -/

theorem call_pc (s : Sys) (c : Call) : (s.call c).pc = s.pc := by
  cases c <;> simp only [Sys.call, Sys.doStart] <;> split <;> rfl

theorem call_now (s : Sys) (c : Call) : (s.call c).now = s.now := by
  cases c <;> simp only [Sys.call, Sys.doStart] <;> split <;> rfl

/-- What the thread does when it goes on. -/
theorem go_cases {s s' : Sys} (h : s.go = some s') :
    (s.pc = .outside ∧ s' = { s with pc := .idling }) ∨
    (s.pc = .idling ∧ s.quit = true ∧ s' = { s with pc := .done }) ∨
    (s.pc = .idling ∧ s.run = false ∧ s' = { s with pc := .waiting }) ∨
    (s.pc = .idling ∧ s' = { s with pc := .delaying (s.now + s.initDelay) }) ∨
    (s.pc = .idling ∧ s.initDelay = 0 ∧ s' = { s with pc := .testing s.now }) ∨
    (∃ t, s.pc = .testing t ∧ s.run = true ∧ s.quit = false ∧
      s' = { s with pc := .calling t, log := .tick s.now :: s.log }) ∨
    (∃ t, s.pc = .testing t ∧ (s.run = false ∨ s.quit = true) ∧ s' = { s with pc := .idling }) ∨
    (∃ t, s.pc = .calling t ∧ s.period = 0 ∧ s' = { s with run := false, pc := .testing t }) ∨
    (∃ t, s.pc = .calling t ∧ s.period ≠ 0 ∧ s' = { s with pc := .pacing (t + s.period) }) := by
  unfold Sys.go at h
  split at h <;> grind

/-- A wait returns with what it waited for. -/
theorem wake_cases {s s' : Sys} (h : s.wake = some s') :
    (s.pc = .waiting ∧ s' = { s with pc := .idling }) ∨
      ∃ t, s.pc.deadline = some t ∧ s' = { s with pc := .testing t } := by
  unfold Sys.wake at h
  split at h <;> grind [Pc.deadline]

/-! ### Stops and one-shots -/

/-- Whether an event is a call of `start` or `one_shot`. -/
def Event.restarts : Event → Bool
  | .call c .. => c.restarts
  | .tick _ => false

/-- Number of calls of `on_timer`. -/
def ticks : List Event → Nat
  | [] => 0
  | .tick _ :: l => ticks l + 1
  | .call .. :: l => ticks l

/-- Whether the latest call is a stop. -/
def stopped : List Event → Bool
  | [] => false
  | .tick _ :: l => stopped l
  | .call c .. :: _ => !c.restarts

/-- Ticks since the latest start, if that is a one-shot that found the timer stopped. -/
def shots : List Event → Option Nat
  | [] => none
  | .tick _ :: l => (shots l).map (· + 1)
  | .call (.oneShot _) false .. :: _ => some 0
  | .call c .. :: l => if c.restarts then none else shots l

/-- Behind a stop, what is no start leaves the timer stopped. -/
theorem stopped_append {mid pre : List Event} {c : Call} {r : Bool} {d p t : Nat}
    (hc : c.restarts = false) (h : ∀ e ∈ mid, e.restarts = false) :
    stopped (mid ++ .call c r d p t :: pre) = true := by
  induction mid with
  | nil =>
    rw [List.nil_append, stopped, hc]
    rfl
  | cons e mid ih =>
    cases e with
    | tick u => exact ih fun e he ↦ h e (List.mem_cons_of_mem _ he)
    | call c' r' d' p' u =>
      have hc' : c'.restarts = false := h _ List.mem_cons_self
      rw [List.cons_append, stopped, hc']
      rfl

/-- A call that is no start does not end a one-shot. -/
theorem shots_call {l : List Event} {c : Call} {r : Bool} {d p t : Nat}
    (hc : c.restarts = false) : shots (.call c r d p t :: l) = shots l := by
  cases c with
  | stop => rfl
  | quit => rfl
  | start => cases hc
  | startPeriod => cases hc
  | startDelay => cases hc
  | oneShot => cases hc

/-- A start that is no accepted one-shot ends one. -/
theorem shots_restart {l : List Event} {c : Call} {r : Bool} {d p t : Nat}
    (hc : c.restarts = true) (ho : r = true ∨ ∀ u, c ≠ .oneShot u) :
    shots (.call c r d p t :: l) = none := by
  cases c with
  | stop => cases hc
  | quit => cases hc
  | start => rfl
  | startPeriod => rfl
  | startDelay => rfl
  | oneShot u =>
    rcases ho with rfl | ho
    · rfl
    · exact absurd rfl (ho u)

theorem shots_append {mid pre : List Event} {u d p t : Nat}
    (h : ∀ e ∈ mid, e.restarts = false) :
    shots (mid ++ .call (.oneShot u) false d p t :: pre) = some (ticks mid) := by
  induction mid with
  | nil => rfl
  | cons e mid ih =>
    have ih' := ih fun e he ↦ h e (List.mem_cons_of_mem _ he)
    cases e with
    | tick v =>
      rw [List.cons_append, shots, ih']
      rfl
    | call c r d' p' v =>
      rw [List.cons_append, shots_call (h _ List.mem_cons_self), ih']
      rfl

/-- What the members say about the history: a stopped timer does not run, and a one-shot has no
period, and runs no more once its tick is over. -/
structure Honours (s : Sys) : Prop where
  stopped_run : stopped s.log = true → s.run = false
  shot_period : ∀ k, shots s.log = some k → s.period = 0
  shot_once : ∀ k, shots s.log = some k → k = 0 ∨ k = 1 ∧ (s.run = true → ∃ t, s.pc = .calling t)

/-- What a history has to be: no tick while the timer is stopped, and one tick a one-shot. -/
structure Honoured (l : List Event) : Prop where
  no_tick : ∀ t l', l = .tick t :: l' → stopped l' = false
  once : ∀ k, shots l = some k → k ≤ 1

/-- A step that records nothing, neither starts the timer nor changes the period, and ends no
callback that leaves the timer running. -/
theorem Honours.congr {s s' : Sys} (h : Honours s) (hl : s'.log = s.log)
    (hp : s'.period = s.period) (hr : s'.run = true → s.run = true)
    (hc : s'.run = true → ∀ t, s.pc = .calling t → s.period = 0 → ∃ u, s'.pc = .calling u) :
    Honours s' where
  stopped_run := by
    intro hs
    rw [hl] at hs
    cases hr' : s'.run
    · rfl
    · exact absurd (hr hr') (by rw [h.stopped_run hs]; decide)
  shot_period := by
    intro k hk
    rw [hl] at hk
    rw [hp]
    exact h.shot_period k hk
  shot_once := by
    intro k hk
    rw [hl] at hk
    rcases h.shot_once k hk with h0 | ⟨h1, hrun⟩
    · exact .inl h0
    · refine .inr ⟨h1, ?_⟩
      intro hr'
      rcases hrun (hr hr') with ⟨t, ht⟩
      exact hc hr' t ht (h.shot_period k hk)

/-- A client's call keeps the members true to the history. -/
theorem honours_call {s : Sys} (h : Honours s) (c : Call) (hpc : s.pc.locked = false) :
    Honours (s.recordCall c) := by
  have hcall : ∀ t, s.pc ≠ .calling t := by
    intro t ht
    rw [ht] at hpc
    cases hpc
  by_cases hc : c.restarts = true
  · by_cases ho : s.run = true ∨ ∀ u, c ≠ .oneShot u
    · have hn : shots (s.recordCall c).log = none := shots_restart hc ho
      constructor
      · intro hs
        simp [Sys.recordCall, stopped, hc] at hs
      · intro k hk
        rw [hn] at hk
        cases hk
      · intro k hk
        rw [hn] at hk
        cases hk
    · simp only [not_or, not_forall, ne_eq, Decidable.not_not, Bool.not_eq_true] at ho
      rcases ho with ⟨hr, u, rfl⟩
      have hs0 : shots (s.recordCall (.oneShot u)).log = some 0 := by
        simp [Sys.recordCall, shots, hr]
      constructor
      · intro hs
        simp [Sys.recordCall, stopped, Call.restarts] at hs
      · intro k hk
        simp [Sys.recordCall, Sys.call, hr]
      · intro k hk
        rw [hs0] at hk
        cases hk
        exact .inl rfl
  · rw [Bool.not_eq_true] at hc
    have hrun : (s.recordCall c).run = false := by
      cases c <;> first | rfl | cases hc
    have hper : (s.recordCall c).period = s.period := by
      cases c <;> first | rfl | cases hc
    constructor
    · intro _
      exact hrun
    · intro k hk
      rw [hper]
      exact h.shot_period k ((shots_call hc).symm.trans hk)
    · intro k hk
      rcases h.shot_once k ((shots_call hc).symm.trans hk) with h0 | ⟨h1, -⟩
      · exact .inl h0
      · refine .inr ⟨h1, ?_⟩
        intro hr
        rw [hrun] at hr
        cases hr

/-- A tick keeps the members true to the history, and is one that the history may have. -/
theorem honours_tick {s : Sys} (h : Honours s) {t : Nat} (hpc : s.pc = .testing t)
    (hr : s.run = true) :
    Honours { s with pc := .calling t, log := .tick s.now :: s.log } ∧
      Honoured (.tick s.now :: s.log) := by
  have hst : stopped s.log = false := by
    cases hs : stopped s.log
    · rfl
    · exact absurd hr (by rw [h.stopped_run hs]; decide)
  have hk0 : ∀ k, shots s.log = some k → k = 0 := by
    intro k hk
    rcases h.shot_once k hk with h0 | ⟨-, hc⟩
    · exact h0
    · rcases hc hr with ⟨u, hu⟩
      rw [hpc] at hu
      cases hu
  have hsh : ∀ k, shots (.tick s.now :: s.log) = some k → k = 1 ∧ s.period = 0 := by
    intro k hk
    rw [shots, Option.map_eq_some_iff] at hk
    rcases hk with ⟨j, hj, rfl⟩
    exact ⟨by rw [hk0 j hj], h.shot_period j hj⟩
  constructor
  · constructor
    · intro hs
      exact absurd (hst.symm.trans hs) (by decide)
    · intro k hk
      exact (hsh k hk).2
    · intro k hk
      exact .inr ⟨(hsh k hk).1, fun _ ↦ ⟨t, rfl⟩⟩
  · constructor
    · rintro u l' he
      cases he
      exact hst
    · intro k hk
      exact (hsh k hk).1.le

theorem honours_step {s s' : Sys} {a : Act} (h : Honours s) (hs : step s a = some s') :
    Honours s' ∧ (s'.log = s.log ∨ ∃ e, s'.log = e :: s.log ∧ Honoured (e :: s.log)) := by
  cases a with
  | call c =>
    simp only [step, Option.ite_none_left_eq_some, Option.some.injEq, Bool.not_eq_true] at hs
    rcases hs with ⟨hpc, rfl⟩
    have hh := honours_call h c hpc
    refine ⟨hh, .inr ⟨_, rfl, ?_⟩⟩
    constructor
    · rintro t l' he
      cases he
    · intro k hk
      rcases hh.shot_once k hk with rfl | ⟨rfl, -⟩
      · exact Nat.zero_le 1
      · exact Nat.le_refl 1
  | go =>
    rcases go_cases hs with ⟨hp, rfl⟩ | ⟨hp, -, rfl⟩ | ⟨hp, -, rfl⟩ | ⟨hp, rfl⟩ | ⟨hp, -, rfl⟩ |
      ⟨t, hp, hr, -, rfl⟩ | ⟨t, hp, -, rfl⟩ | ⟨t, hp, h0, rfl⟩ | ⟨t, hp, h0, rfl⟩
    · exact ⟨h.congr rfl rfl id (by simp [hp]), .inl rfl⟩
    · exact ⟨h.congr rfl rfl id (by simp [hp]), .inl rfl⟩
    · exact ⟨h.congr rfl rfl id (by simp [hp]), .inl rfl⟩
    · exact ⟨h.congr rfl rfl id (by simp [hp]), .inl rfl⟩
    · exact ⟨h.congr rfl rfl id (by simp [hp]), .inl rfl⟩
    · rcases honours_tick h hp hr with ⟨hh, hd⟩
      exact ⟨hh, .inr ⟨_, rfl, hd⟩⟩
    · exact ⟨h.congr rfl rfl id (by simp [hp]), .inl rfl⟩
    · -- a callback without a period behind it stops the timer
      exact ⟨h.congr rfl rfl (by simp) (by simp), .inl rfl⟩
    · exact ⟨h.congr rfl rfl id (fun _ _ _ hz ↦ absurd hz h0), .inl rfl⟩
  | wake =>
    rcases wake_cases hs with ⟨hp, rfl⟩ | ⟨t, hp, rfl⟩
    · exact ⟨h.congr rfl rfl id (by simp [hp]), .inl rfl⟩
    · refine ⟨h.congr rfl rfl id ?_, .inl rfl⟩
      intro _ u hu
      rw [hu] at hp
      cases hp
  | pass d =>
    cases hs
    exact ⟨h.congr rfl rfl id (fun _ t ht _ ↦ ⟨t, ht⟩), .inl rfl⟩

theorem honoured_of_reachable {s : Sys} (h : machine.Reachable s) {l : List Event}
    (hl : l <:+ s.log) : Honoured l := by
  have hall := h.forall_suffix Sys.log (I := Honours) (P := Honoured) ?_ ?_
    (fun _ _ _ hi hs ↦ honours_step hi hs)
  · exact hall.2 l hl
  · rintro _ ⟨now, rfl⟩
    refine ⟨⟨?_, ?_, ?_⟩, rfl⟩
    · intro hs
      cases hs
    · intro k hk
      cases hk
    · intro k hk
      cases hk
  · constructor
    · intro t l' he
      cases he
    · intro k hk
      cases hk

/-- Whatever the clients call and however the waits return, between a stop and a tick behind it
there is a start, and between a one-shot that found the timer stopped and the next start there
is no more than one tick. -/
theorem threadTimer_honours {s : Sys} (h : machine.Reachable s) :
    (∀ post mid pre c r d p t u, s.log = post ++ .tick u :: (mid ++ .call c r d p t :: pre) →
      c = .stop ∨ c = .quit → ∃ e ∈ mid, e.restarts = true) ∧
    ∀ post mid pre x d p t, s.log = post ++ (mid ++ .call (.oneShot x) false d p t :: pre) →
      (∀ e ∈ mid, e.restarts = false) → ticks mid ≤ 1 := by
  constructor
  · intro post mid pre c r d p t u he hc
    by_contra hn
    have hmid : ∀ e ∈ mid, e.restarts = false := by
      intro e hm
      cases hr : e.restarts
      · rfl
      · exact absurd ⟨e, hm, hr⟩ hn
    have hc' : c.restarts = false := by
      rcases hc with rfl | rfl
      · rfl
      · rfl
    have hh := honoured_of_reachable h (he ▸ List.suffix_append post _)
    have hst := hh.no_tick u _ rfl
    rw [stopped_append hc' hmid] at hst
    cases hst
  · intro post mid pre x d p t he hmid
    have hh := honoured_of_reachable h (he ▸ List.suffix_append post _)
    exact hh.once _ (shots_append hmid)

/-- A periodic timer is stopped in its first delay and started as a one-shot; the wait returns
at once and the one tick follows. -/
theorem threadTimer_honours_stopped :
    ∃ s, machine.run (start 0)
        [.call (.startDelay 10 5), .go, .go, .pass 4, .call .stop, .call (.oneShot 3), .wake,
          .go, .go, .go, .go] = some s ∧
      s.log = [.tick 4, .call (.oneShot 3) false 3 0 4, .call .stop true 10 5 4,
        .call (.startDelay 10 5) false 10 5 0] ∧
      (∀ post mid pre c r d p t u,
        s.log = post ++ .tick u :: (mid ++ .call c r d p t :: pre) →
        c = .stop ∨ c = .quit → ∃ e ∈ mid, e.restarts = true) ∧
      ∀ post mid pre x d p t, s.log = post ++ (mid ++ .call (.oneShot x) false d p t :: pre) →
        (∀ e ∈ mid, e.restarts = false) → ticks mid ≤ 1 := by
  obtain ⟨s, hs, hl⟩ : ∃ s, machine.run (start 0)
        [.call (.startDelay 10 5), .go, .go, .pass 4, .call .stop, .call (.oneShot 3), .wake,
          .go, .go, .go, .go] = some s ∧
      s.log = [.tick 4, .call (.oneShot 3) false 3 0 4, .call .stop true 10 5 4,
        .call (.startDelay 10 5) false 10 5 0] := by
    refine ⟨_, rfl, ?_⟩
    rfl
  exact ⟨s, hs, hl, threadTimer_honours (Machine.Reachable.run (.init ⟨0, rfl⟩) hs)⟩

/-! ### Ticks come no earlier than asked for -/

/-- Whether an event starts a stopped timer. -/
def Event.starts : Event → Bool
  | .call c running .. => c.restarts && !running
  | .tick _ => false

/-- The delay and the period that a call names are those it leaves. -/
def Call.Records (d p : Nat) : Call → Prop
  | .startPeriod period => d = period ∧ p = period
  | .startDelay initDelay period => d = initDelay ∧ p = period
  | .oneShot timeout => d = timeout ∧ p = 0
  | _ => True

/-- The first tick behind a call that starts the stopped timer comes no earlier than after the
delay, and each further one no earlier than one more period later. -/
def OnTime (l : List Event) : Prop :=
  ∀ post mid pre c d p t u, l = post ++ .tick u :: (mid ++ .call c false d p t :: pre) →
    c.restarts = true → (∀ e ∈ mid, e.starts = false) →
    c.Records d p ∧ t + d + ticks mid * p ≤ u

/-- The latest call that started the stopped timer, and when its next tick may come. -/
structure Asked where
  initDelay : Nat
  period : Nat
  time : Nat
  next : Nat
  deriving DecidableEq, Repr

/-- What was asked for last. -/
def asked : List Event → Option Asked
  | [] => none
  | .tick _ :: l => (asked l).map fun a ↦ { a with next := a.next + a.period }
  | .call c running d p t :: l =>
    if c.restarts && !running then some { initDelay := d, period := p, time := t, next := t + d }
    else asked l

/-- A call with these times does no harm: on a stopped timer, the thread is not in a wait that
ends before the new delay does; on a running one, neither the delay before the first deadline
nor the period gets shorter than it was asked for. -/
def Sys.Fits (s : Sys) (d p : Nat) : Prop :=
  s.quit = false →
    (s.run = false → ∀ t ∈ s.pc.deadline, s.now + d ≤ t) ∧
    (s.run = true → ∀ a ∈ asked s.log,
      (s.pc.deadline = none → a.initDelay ≤ d) ∧ (a.period ≤ p ∨ p = 0))

instance (s : Sys) (d p : Nat) : Decidable (s.Fits d p) :=
  inferInstanceAs (Decidable (s.quit = false →
    (s.run = false → ∀ t ∈ s.pc.deadline, s.now + d ≤ t) ∧
    (s.run = true → ∀ a ∈ asked s.log,
      (s.pc.deadline = none → a.initDelay ≤ d) ∧ (a.period ≤ p ∨ p = 0))))

/-- A step that cannot bring a tick forward: no wait returns before its deadline while the
timer runs, and calls find no wait that is too short for them. -/
def Careful (s : Sys) : Act → Prop
  | .wake => ∀ t ∈ s.pc.deadline, s.now < t → s.run = false ∨ s.quit = true
  | .call .start => s.run = false → s.Fits s.initDelay s.period
  | .call (.startPeriod period) => s.Fits period period
  | .call (.startDelay initDelay period) => s.Fits initDelay period
  | .call (.oneShot timeout) => s.run = false → s.Fits timeout 0
  | _ => True

instance (s : Sys) (a : Act) : Decidable (Careful s a) :=
  match a with
  | .wake => inferInstanceAs (Decidable (∀ t ∈ s.pc.deadline, s.now < t → _ ∨ _))
  | .call .start => inferInstanceAs (Decidable (s.run = false → s.Fits s.initDelay s.period))
  | .call (.startPeriod period) => inferInstanceAs (Decidable (s.Fits period period))
  | .call (.startDelay initDelay period) => inferInstanceAs (Decidable (s.Fits initDelay period))
  | .call (.oneShot timeout) => inferInstanceAs (Decidable (s.run = false → s.Fits timeout 0))
  | .call .stop => .isTrue trivial
  | .call .quit => .isTrue trivial
  | .go => .isTrue trivial
  | .pass _ => .isTrue trivial

/-- What was asked for, seen from behind more events. -/
theorem asked_append {mid pre : List Event} {c : Call} {d p t : Nat} (hc : c.restarts = true)
    (h : ∀ e ∈ mid, e.starts = false) :
    asked (mid ++ .call c false d p t :: pre) =
      some { initDelay := d, period := p, time := t, next := t + d + ticks mid * p } := by
  induction mid with
  | nil => simp [asked, hc, ticks]
  | cons e mid ih =>
    have ih' := ih fun e he ↦ h e (List.mem_cons_of_mem _ he)
    cases e with
    | tick v =>
      rw [List.cons_append, asked, ih', Option.map_some, ticks]
      simp only [Option.some.injEq, Asked.mk.injEq, true_and]
      rw [Nat.add_mul, Nat.one_mul]
      omega
    | call c' r d' p' v =>
      have hs : (c'.restarts && !r) = false := h _ List.mem_cons_self
      rw [List.cons_append, asked, if_neg (by simp [hs]), ih', ticks]

/-- How far the thread is from the next tick, at each place. -/
def Due (s : Sys) (a : Asked) : Pc → Prop
  | .outside | .idling | .waiting =>
    a.next = a.time + a.initDelay ∧ a.time ≤ s.now ∧ a.initDelay ≤ s.initDelay
  | .delaying t | .pacing t => a.next ≤ t
  | .testing t => a.next ≤ t ∧ t ≤ s.now
  | .calling t => a.next ≤ t + a.period
  | .done => True

/-- While the timer runs, the thread is on schedule for what was asked for. -/
def OnSchedule (s : Sys) : Prop :=
  ∀ a, asked s.log = some a → s.run = true → s.quit = false →
    (a.period ≤ s.period ∨ s.period = 0) ∧ Due s a s.pc

/-- What a history has to be: its latest tick is not early, and its calls left the times that
they name. -/
structure Timely (l : List Event) : Prop where
  tick : ∀ u l' a, l = .tick u :: l' → asked l' = some a → a.next ≤ u
  records : ∀ c d p t l', l = .call c false d p t :: l' → c.Records d p

/-- Times that fit keep the thread on schedule, whatever the call was. -/
theorem onSchedule_fits {s : Sys} (h : OnSchedule s) {c : Call} {d p : Nat}
    (hpc : s.pc.locked = false) (hc : c.restarts = true) (hf : s.Fits d p)
    (hq : (s.call c).quit = s.quit) (hd : (s.call c).initDelay = d)
    (hp : (s.call c).period = p) : OnSchedule (s.recordCall c) := by
  intro a ha hr hq'
  rcases hf (hq.symm.trans hq') with ⟨hidle, hrun⟩
  have hpc' : (s.recordCall c).pc = s.pc := call_pc s c
  have hn : (s.recordCall c).now = s.now := call_now s c
  have hd' : (s.recordCall c).initDelay = d := hd
  have hp' : (s.recordCall c).period = p := hp
  simp only [Sys.recordCall, asked, hc, hd, hp, Bool.true_and] at ha
  rw [hpc', hp']
  cases hs : s.run
  · -- the call is the one that counts now
    rw [hs, Bool.not_false, if_pos rfl, Option.some.injEq] at ha
    subst ha
    refine ⟨.inl (Nat.le_refl p), ?_⟩
    have hw := hidle hs
    cases hpc₀ : s.pc <;> rw [hpc₀] at hpc hw <;>
      simp_all [Due, Pc.locked, Pc.deadline]
  · -- an earlier call still counts
    rw [hs, Bool.not_true, if_neg (by decide)] at ha
    rcases h a ha hs (hq.symm.trans hq') with ⟨-, hdue⟩
    have hw := hrun hs a ha
    refine ⟨hw.2, ?_⟩
    cases hpc₀ : s.pc <;> rw [hpc₀] at hpc hw hdue <;>
      simp_all [Due, Pc.locked, Pc.deadline]

/-- A call that finds the timer running and leaves the members as they are. -/
theorem onSchedule_ignored {s : Sys} (h : OnSchedule s) {c : Call} (hr : s.run = true)
    (he : s.call c = s) : OnSchedule (s.recordCall c) := by
  intro a ha hr' hq
  rw [Sys.recordCall, he] at ha hq ⊢
  rw [asked, hr, Bool.not_true, Bool.and_false, if_neg (by decide)] at ha
  exact h a ha hr hq

theorem onSchedule_call {s : Sys} (h : OnSchedule s) {c : Call} (hpc : s.pc.locked = false)
    (hc : Careful s (.call c)) : OnSchedule (s.recordCall c) := by
  cases c with
  | start =>
    cases hr : s.run
    · apply onSchedule_fits h hpc rfl (hc hr) <;> simp [Sys.call, Sys.doStart, hr]
    · apply onSchedule_ignored h hr
      simp [Sys.call, Sys.doStart, hr]
  | startPeriod q =>
    apply onSchedule_fits h hpc rfl hc <;> cases hr : s.run <;> simp [Sys.call, Sys.doStart, hr]
  | startDelay d q =>
    apply onSchedule_fits h hpc rfl hc <;> cases hr : s.run <;> simp [Sys.call, Sys.doStart, hr]
  | oneShot d =>
    cases hr : s.run
    · apply onSchedule_fits h hpc rfl (hc hr) <;> simp [Sys.call, hr]
    · apply onSchedule_ignored h hr
      simp [Sys.call, hr]
  | stop =>
    intro a _ hr
    cases hr
  | quit =>
    intro a _ hr
    cases hr

/-- A call that starts the stopped timer leaves the times that it names. -/
theorem records_call (s : Sys) (c : Call) (h : s.run = false) :
    c.Records (s.call c).initDelay (s.call c).period := by
  cases c <;> simp [Call.Records, Sys.call, Sys.doStart, h]

/-- A tick on schedule is not early, and puts the next one off by a period. -/
theorem onSchedule_tick {s : Sys} (h : OnSchedule s) {t : Nat} (hpc : s.pc = .testing t)
    (hr : s.run = true) (hq : s.quit = false) :
    OnSchedule { s with pc := .calling t, log := .tick s.now :: s.log } ∧
      Timely (.tick s.now :: s.log) := by
  have hdue : ∀ a, asked s.log = some a → a.next ≤ t ∧ t ≤ s.now := by
    intro a ha
    have hd := (h a ha hr hq).2
    rw [hpc] at hd
    exact hd
  constructor
  · intro a ha _ _
    rw [asked, Option.map_eq_some_iff] at ha
    rcases ha with ⟨b, hb, rfl⟩
    refine ⟨(h b hb hr hq).1, ?_⟩
    exact Nat.add_le_add_right (hdue b hb).1 _
  · constructor
    · rintro u l' a he ha
      cases he
      exact Nat.le_trans (hdue a ha).1 (hdue a ha).2
    · rintro c d p u l' he
      cases he

/-- A step of the thread that records nothing and starts nothing keeps to the schedule if the
thread is as far as it has to be at its new place. -/
theorem OnSchedule.move {s s' : Sys} (h : OnSchedule s) (hl : s'.log = s.log)
    (hr : s'.run = true → s.run = true) (hq : s'.quit = s.quit) (hp : s'.period = s.period)
    (hd : ∀ a, s'.run = true → s.quit = false →
      (a.period ≤ s.period ∨ s.period = 0) → Due s a s.pc → Due s' a s'.pc) :
    OnSchedule s' := by
  intro a ha hr' hq'
  rw [hl] at ha
  rw [hq] at hq'
  rcases h a ha (hr hr') hq' with ⟨hper, hdue⟩
  rw [hp]
  exact ⟨hper, hd a hr' hq' hper hdue⟩

theorem onSchedule_go {s s' : Sys} (h : OnSchedule s) (hs : s.go = some s') :
    OnSchedule s' ∧ (s'.log = s.log ∨ ∃ e, s'.log = e :: s.log ∧ Timely (e :: s.log)) := by
  rcases go_cases hs with ⟨hp, rfl⟩ | ⟨hp, hq, rfl⟩ | ⟨hp, hr, rfl⟩ | ⟨hp, rfl⟩ | ⟨hp, h0, rfl⟩ |
    ⟨t, hp, hr, hq, rfl⟩ | ⟨t, hp, hrq, rfl⟩ | ⟨t, hp, h0, rfl⟩ | ⟨t, hp, h0, rfl⟩
  · refine ⟨h.move rfl id rfl rfl ?_, .inl rfl⟩
    intro a _ _ _ hd
    rw [hp] at hd
    exact hd
  · exact ⟨h.move rfl id rfl rfl fun _ _ _ _ _ ↦ trivial, .inl rfl⟩
  · refine ⟨h.move rfl id rfl rfl ?_, .inl rfl⟩
    intro a _ _ _ hd
    rw [hp] at hd
    exact hd
  · refine ⟨h.move rfl id rfl rfl ?_, .inl rfl⟩
    intro a _ _ _ hd
    rw [hp] at hd
    rcases hd with ⟨hn, ht, hi⟩
    show a.next ≤ s.now + s.initDelay
    omega
  · refine ⟨h.move rfl id rfl rfl ?_, .inl rfl⟩
    intro a _ _ _ hd
    rw [hp] at hd
    rcases hd with ⟨hn, ht, hi⟩
    refine ⟨?_, Nat.le_refl s.now⟩
    omega
  · rcases onSchedule_tick h hp hr hq with ⟨hh, ht⟩
    exact ⟨hh, .inr ⟨_, rfl, ht⟩⟩
  · refine ⟨h.move rfl id rfl rfl ?_, .inl rfl⟩
    intro a hr hq _ _
    rcases hrq with hr' | hq'
    · exact absurd (hr.symm.trans hr') (by decide)
    · exact absurd (hq.symm.trans hq') (by decide)
  · exact ⟨h.move rfl (by simp) rfl rfl fun a hr ↦ (by cases hr), .inl rfl⟩
  · refine ⟨h.move rfl id rfl rfl ?_, .inl rfl⟩
    intro a _ _ hper hd
    rw [hp] at hd
    have hd' : a.next ≤ t + a.period := hd
    show a.next ≤ t + s.period
    omega

/-- A careful return from a wait finds the deadline passed, or the timer stopped. -/
theorem onSchedule_wake {s s' : Sys} (h : OnSchedule s) (hc : Careful s .wake)
    (hs : s.wake = some s') : OnSchedule s' ∧ s'.log = s.log := by
  rcases wake_cases hs with ⟨hp, rfl⟩ | ⟨t, hp, rfl⟩
  · refine ⟨h.move rfl id rfl rfl ?_, rfl⟩
    intro a _ _ _ hd
    rw [hp] at hd
    exact hd
  · refine ⟨h.move rfl id rfl rfl ?_, rfl⟩
    intro a hr hq _ hd
    have hnext : a.next ≤ t := by
      cases hpc : s.pc <;> rw [hpc] at hd hp <;> simp [Pc.deadline] at hp
      · exact hp ▸ hd
      · exact hp ▸ hd
    refine ⟨hnext, ?_⟩
    show t ≤ s.now
    by_contra hlt
    rcases hc t hp (Nat.lt_of_not_le hlt) with hr' | hq'
    · exact absurd (hr.symm.trans hr') (by decide)
    · exact absurd (hq.symm.trans hq') (by decide)

theorem onSchedule_pass {s : Sys} (h : OnSchedule s) (d : Nat) :
    OnSchedule { s with now := s.now + d } := by
  refine h.move rfl id rfl rfl ?_
  intro a _ _ _ hd
  show Due { s with now := s.now + d } a s.pc
  cases hp : s.pc <;> rw [hp] at hd <;> simp only [Due] at hd ⊢ <;> omega

theorem onSchedule_step {s s' : Sys} {a : Act} (h : OnSchedule s) (hc : Careful s a)
    (hs : step s a = some s') :
    OnSchedule s' ∧ (s'.log = s.log ∨ ∃ e, s'.log = e :: s.log ∧ Timely (e :: s.log)) := by
  cases a with
  | call c =>
    simp only [step, Option.ite_none_left_eq_some, Option.some.injEq, Bool.not_eq_true] at hs
    rcases hs with ⟨hpc, rfl⟩
    refine ⟨onSchedule_call h hpc hc, .inr ⟨_, rfl, ?_⟩⟩
    constructor
    · rintro u l' a he
      cases he
    · rintro c' d p u l' he
      simp only [List.cons.injEq, Event.call.injEq] at he
      rcases he with ⟨⟨rfl, hr, rfl, rfl, -⟩, -⟩
      exact records_call s c hr
  | go => exact onSchedule_go h hs
  | wake =>
    rcases onSchedule_wake h hc hs with ⟨hh, hl⟩
    exact ⟨hh, .inl hl⟩
  | pass d =>
    cases hs
    exact ⟨onSchedule_pass h d, .inl rfl⟩

theorem timely_of_reachable {s : Sys} (h : (machine.restrict Careful).Reachable s)
    {l : List Event} (hl : l <:+ s.log) : Timely l := by
  have hall := h.forall_suffix Sys.log (I := OnSchedule) (P := Timely) ?_ ?_ ?_
  · exact hall.2 l hl
  · rintro _ ⟨now, rfl⟩
    refine ⟨?_, rfl⟩
    intro a ha
    cases ha
  · constructor
    · intro u l' a he
      cases he
    · intro c d p t l' he
      cases he
  · intro s a s' hi hs
    rcases Machine.restrict_step.mp hs with ⟨hc, hs⟩
    exact onSchedule_step hi hc hs

/-- In every run whose steps are careful no tick is early. -/
theorem threadTimer_onTime {s : Sys} (h : (machine.restrict Careful).Reachable s) :
    OnTime s.log := by
  intro post mid pre c d p t u he hc hmid
  have hl : .tick u :: (mid ++ .call c false d p t :: pre) <:+ s.log :=
    he ▸ List.suffix_append post _
  have hl' : .call c false d p t :: pre <:+ s.log :=
    List.IsSuffix.trans ⟨.tick u :: mid, rfl⟩ hl
  constructor
  · exact (timely_of_reachable h hl').records c d p t pre rfl
  · exact (timely_of_reachable h hl).tick u _ _ rfl (asked_append hc hmid)

/-- A timer restarted before its thread has begun to wait, with two ticks and one late wait. -/
theorem threadTimer_onTime_twice :
    ∃ s, (machine.restrict Careful).run (start 0)
        [.go, .go, .call (.startDelay 9 5), .pass 1, .call .stop, .call (.startDelay 10 5), .wake,
          .go, .pass 10, .wake, .go, .go, .pass 7, .wake, .go] = some s ∧
      s.log = [.tick 18, .tick 11, .call (.startDelay 10 5) false 10 5 1,
        .call .stop true 9 5 1, .call (.startDelay 9 5) false 9 5 0] ∧
      OnTime s.log := by
  obtain ⟨s, hs, hl⟩ : ∃ s, (machine.restrict Careful).run (start 0)
        [.go, .go, .call (.startDelay 9 5), .pass 1, .call .stop, .call (.startDelay 10 5), .wake,
          .go, .pass 10, .wake, .go, .go, .pass 7, .wake, .go] = some s ∧
      s.log = [.tick 18, .tick 11, .call (.startDelay 10 5) false 10 5 1,
        .call .stop true 9 5 1, .call (.startDelay 9 5) false 9 5 0] := by
    refine ⟨_, rfl, ?_⟩
    rfl
  exact ⟨s, hs, hl, threadTimer_onTime (Machine.Reachable.run (.init ⟨0, rfl⟩) hs)⟩

/-- A timer stopped and started again in its first delay: the signal of the stop ends the wait
of the first start, and the tick of the second one comes at once. -/
theorem threadTimer_not_onTime : ¬∀ s, machine.Reachable s → OnTime s.log := by
  intro h
  obtain ⟨s, hs, hl⟩ : ∃ s, machine.run (start 0)
        [.go, .go, .call (.startDelay 10 10), .wake, .go, .pass 4, .call .stop,
          .call (.startDelay 10 10), .wake, .go] = some s ∧
      s.log = [.tick 4, .call (.startDelay 10 10) false 10 10 4, .call .stop true 10 10 4,
        .call (.startDelay 10 10) false 10 10 0] := by
    refine ⟨_, rfl, ?_⟩
    rfl
  have ho := h s (Machine.Reachable.run (.init ⟨0, rfl⟩) hs) [] [] _ _ _ _ _ _ hl rfl
    (by simp)
  exact absurd ho.2 (by decide)

end CtrlrFx.Os.ThreadTimer
