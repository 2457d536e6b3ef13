import CtrlrFx.Base.Machine
import CtrlrFx.Base.Words
import Mathlib.Algebra.BigOperators.Ring.Finset

/-!
# Reader/writer lock

`src/os/generic/RdWrLock.cpp`: a flag for the write lock, a flag for a writer waiting for it
and a count of read locks, guarded by one condition variable. What runs between two waits
holds the lock of the condition variable and is one step. A signal wakes one sleeper of any
kind, a broadcast wakes all, and any sleeper may wake by itself. The count is an `int` of 32
bits that wraps, so that one read hold too many makes it negative and opens the lock to writers.
-/

namespace CtrlrFx.Os.RdWrLock
open Base

/-- The three loops around `cond_.wait()`: in `rd_lock`, and the two of `wr_lock`. -/
inductive Loop where
  | rdLock
  | wrWait
  | wrExcl
  deriving DecidableEq, Repr

/-- Where a thread is: outside, asleep on `cond_`, or woken and about to test its loop
condition again. -/
inductive Pc where
  | idle
  | asleep (l : Loop)
  | woken (l : Loop)
  deriving DecidableEq, Repr

/-- Members of the lock, `CtrlrFx/os/generic/CtrlrFx/RdWrLock.h:49–56`, with the threads on
it and the locks each of them holds. A thread may hold several read locks. -/
structure Sys (Tid : Type) where
  wrlk : Bool
  wrwt : Bool
  nrd : Int32
  pc : Tid → Pc
  rd : Tid → Nat
  wr : Tid → Bool

variable {Tid : Type}

namespace Sys

/-- The condition of a wait loop; `src/os/generic/RdWrLock.cpp:48,76,80`. -/
def blocked (s : Sys Tid) : Loop → Bool
  | .rdLock => s.wrlk || s.wrwt
  | .wrWait => s.wrwt
  | .wrExcl => s.wrlk || decide (0 < s.nrd)

/-- Wakes every sleeper. -/
def broadcast (s : Sys Tid) : Sys Tid :=
  { s with pc := fun t ↦ match s.pc t with
      | .asleep l => .woken l
      | p => p }

variable [DecidableEq Tid]

/-- Thread `t` moves to `p`. -/
def moveTo (s : Sys Tid) (t : Tid) (p : Pc) : Sys Tid :=
  { s with pc := Function.update s.pc t p }

/-- A sleeper wakes. -/
def wake (s : Sys Tid) (t : Tid) : Option (Sys Tid) :=
  match s.pc t with
  | .asleep l => some (s.moveTo t (.woken l))
  | _ => none

/-- Wakes the sleeper `w`, or no one when no one sleeps. -/
def signal [Fintype Tid] (s : Sys Tid) : Option Tid → Option (Sys Tid)
  | some w => s.wake w
  | none => if ∀ t, ¬s.pc t matches .asleep _ then some s else none

/-- `rd_lock` from its loop test on; `src/os/generic/RdWrLock.cpp:48–50`. -/
def rdLock (s : Sys Tid) (t : Tid) : Sys Tid :=
  if s.blocked .rdLock then s.moveTo t (.asleep .rdLock)
  else { s with nrd := s.nrd + 1, rd := Function.update s.rd t (s.rd t + 1) }.moveTo t .idle

/-- `wr_lock` from its second loop test on; `src/os/generic/RdWrLock.cpp:80–88`. -/
def wrExcl [Fintype Tid] (s : Sys Tid) (t : Tid) (w : Option Tid) : Option (Sys Tid) :=
  if s.blocked .wrExcl then some (s.moveTo t (.asleep .wrExcl))
  else
    ({ s with wrlk := true, wrwt := false, wr := Function.update s.wr t true }.moveTo t
      .idle).signal w

/-- `wr_lock` from its first loop test on; `src/os/generic/RdWrLock.cpp:76–79`. -/
def wrLock [Fintype Tid] (s : Sys Tid) (t : Tid) (w : Option Tid) : Option (Sys Tid) :=
  if s.blocked .wrWait then some (s.moveTo t (.asleep .wrWait))
  else { s with wrwt := true }.wrExcl t w

/-- `rd_unlock`, with its result; `src/os/generic/RdWrLock.cpp:57–69`. -/
def rdUnlock (s : Sys Tid) (t : Tid) : Bool × Sys Tid :=
  if s.nrd = 0 then (false, s)
  else
    let s' := { s with nrd := s.nrd - 1, rd := Function.update s.rd t (s.rd t - 1) }
    (true, if s'.nrd = 0 then s'.broadcast else s')

/-- `wr_unlock`, with its result; `src/os/generic/RdWrLock.cpp:96–104`. -/
def wrUnlock (s : Sys Tid) (t : Tid) : Bool × Sys Tid :=
  if !s.wrlk then (false, s)
  else (true, { s with wrlk := false, wr := Function.update s.wr t false }.broadcast)

/-- `wr_demote`, with its result; `src/os/generic/RdWrLock.cpp:109–119`. -/
def wrDemote (s : Sys Tid) (t : Tid) : Bool × Sys Tid :=
  if !s.wrlk then (false, s)
  else
    (true, { s with
      wrlk := false
      nrd := s.nrd + 1
      wr := Function.update s.wr t false
      rd := Function.update s.rd t (s.rd t + 1) }.broadcast)

end Sys

/-- Steps of the threads. `w` is the sleeper that the signal at the end of `wr_lock` wakes,
if the step gets there. -/
inductive Act (Tid : Type) where
  | rdLock (t : Tid)
  | rdUnlock (t : Tid)
  | wrLock (t : Tid) (w : Option Tid)
  | wrUnlock (t : Tid)
  | wrDemote (t : Tid)
  | resume (t : Tid) (w : Option Tid)
  | spurious (t : Tid)

/-- One step: an idle thread calls, unlocking or demoting only what it holds, a woken thread
goes around its loop, or a sleeper wakes by itself. -/
def step [DecidableEq Tid] [Fintype Tid] (s : Sys Tid) : Act Tid → Option (Sys Tid)
  | .rdLock t => if s.pc t = .idle then some (s.rdLock t) else none
  | .rdUnlock t => if s.pc t = .idle ∧ 0 < s.rd t then some (s.rdUnlock t).2 else none
  | .wrLock t w => if s.pc t = .idle then s.wrLock t w else none
  | .wrUnlock t => if s.pc t = .idle ∧ s.wr t then some (s.wrUnlock t).2 else none
  | .wrDemote t => if s.pc t = .idle ∧ s.wr t then some (s.wrDemote t).2 else none
  | .resume t w =>
    match s.pc t with
    | .woken .rdLock => some (s.rdLock t)
    | .woken .wrWait => s.wrLock t w
    | .woken .wrExcl => s.wrExcl t w
    | _ => none
  | .spurious t => s.wake t

/-- A lock just constructed; `CtrlrFx/os/generic/CtrlrFx/RdWrLock.h:63`. -/
def start (Tid : Type) : Sys Tid :=
  { wrlk := false, wrwt := false, nrd := 0, pc := fun _ ↦ .idle, rd := fun _ ↦ 0,
    wr := fun _ ↦ false }

/-- The lock and its threads. -/
def machine (Tid : Type) [DecidableEq Tid] [Fintype Tid] : Machine (Sys Tid) (Act Tid) where
  init s := s = start Tid
  step := step

/-! ### What the members say about the holders -/

section Ledger

variable [Fintype Tid]

/-- The members agree with the holds of the threads, and a write hold is the only hold. -/
structure Ledger (s : Sys Tid) : Prop where
  nrd_eq : s.nrd.toInt = (total id s.rd : Nat)
  wrlk_eq : total Bool.toNat s.wr = s.wrlk.toNat
  alone : s.wrlk = true → s.nrd = 0

/-- Only the members and the holds matter to the ledger. -/
theorem Ledger.congr {s s' : Sys Tid} (h : Ledger s) (hn : s'.nrd = s.nrd)
    (hw : s'.wrlk = s.wrlk) (hr : s'.rd = s.rd) (hh : s'.wr = s.wr) : Ledger s' := by
  obtain ⟨h1, h2, h3⟩ := h
  exact ⟨by rw [hn, hr]; exact h1, by rw [hw, hh]; exact h2, by rw [hn, hw]; exact h3⟩

theorem ledger_start : Ledger (start Tid) :=
  ⟨by rw [start, total_const_zero id 0 rfl]; rfl, total_const_zero _ _ rfl, fun _ ↦ rfl⟩

/-- A holder of the write lock sets its flag. -/
theorem Ledger.wrlk_of_wr {s : Sys Tid} (h : Ledger s) {t : Tid} (ht : s.wr t = true) :
    s.wrlk = true := by
  have hl := le_total Bool.toNat s.wr t
  rw [h.wrlk_eq, ht] at hl
  cases hw : s.wrlk
  · rw [hw] at hl
    exact absurd hl (by decide)
  · rfl

/-- A reader has been counted. -/
theorem Ledger.nrd_pos {s : Sys Tid} (h : Ledger s) {t : Tid} (ht : 0 < s.rd t) :
    0 < s.nrd := by
  have hl : id (s.rd t) ≤ total id s.rd := le_total id s.rd t
  rw [int32_pos_iff, h.nrd_eq]
  simp only [id_eq] at hl
  omega

/-- While anyone reads no writer holds the lock. -/
theorem Ledger.wrlk_of_nrd {s : Sys Tid} (h : Ledger s) (hn : 0 < s.nrd) : s.wrlk = false := by
  cases hw : s.wrlk
  · rfl
  · rw [h.alone hw] at hn
    exact absurd hn (by decide)

theorem ledger_broadcast {s : Sys Tid} (h : Ledger s) : Ledger s.broadcast :=
  h.congr rfl rfl rfl rfl

variable [DecidableEq Tid]

theorem ledger_moveTo {s : Sys Tid} (h : Ledger s) (t : Tid) (p : Pc) : Ledger (s.moveTo t p) :=
  h.congr rfl rfl rfl rfl

omit [Fintype Tid] in
/-- Waking a sleeper only moves it. -/
theorem wake_cases {s s' : Sys Tid} {t : Tid} (hs : s.wake t = some s') :
    ∃ l, s.pc t = .asleep l ∧ s' = s.moveTo t (.woken l) := by
  unfold Sys.wake at hs
  split at hs
  · next l hl =>
    cases hs
    exact ⟨l, hl, rfl⟩
  · cases hs

/-- A signal moves one sleeper or none. -/
theorem signal_cases {s s' : Sys Tid} {w : Option Tid} (hs : s.signal w = some s') :
    s' = s ∨ ∃ t l, s.pc t = .asleep l ∧ s' = s.moveTo t (.woken l) := by
  cases w with
  | none =>
    simp only [Sys.signal] at hs
    split at hs
    · cases hs
      exact .inl rfl
    · cases hs
  | some t =>
    obtain ⟨l, hl, he⟩ := wake_cases hs
    exact .inr ⟨t, l, hl, he⟩

theorem ledger_wake {s s' : Sys Tid} {t : Tid} (h : Ledger s) (hs : s.wake t = some s') :
    Ledger s' := by
  obtain ⟨l, -, rfl⟩ := wake_cases hs
  exact ledger_moveTo h t _

theorem ledger_signal {s s' : Sys Tid} {w : Option Tid} (h : Ledger s)
    (hs : s.signal w = some s') : Ledger s' := by
  obtain rfl | ⟨t, l, -, rfl⟩ := signal_cases hs
  · exact h
  · exact ledger_moveTo h t _

omit [Fintype Tid] in
/-- A reader goes in where neither a writer holds the lock nor one waits for it. -/
theorem rdLock_of_open {s : Sys Tid} (h : s.blocked .rdLock = false) (t : Tid) :
    s.rdLock t =
      { s with nrd := s.nrd + 1, rd := Function.update s.rd t (s.rd t + 1) }.moveTo t .idle := by
  rw [Sys.rdLock, if_neg]
  rw [h]
  exact Bool.false_ne_true

/-- One read hold more. -/
theorem total_rd_succ (s : Sys Tid) (t : Tid) :
    total id (Function.update s.rd t (s.rd t + 1)) = total id s.rd + 1 := by
  have ht := total_update id s.rd t (s.rd t + 1)
  simp only [id_eq] at ht
  omega

/-- A reader enters only while no writer holds the lock, and where the count has room for it. -/
theorem ledger_rdLock {s : Sys Tid} (h : Ledger s) (t : Tid)
    (hc : s.blocked .rdLock = false → total id s.rd + 1 < 2 ^ 31) : Ledger (s.rdLock t) := by
  cases hb : s.blocked .rdLock with
  | true =>
    rw [Sys.rdLock, if_pos hb]
    exact ledger_moveTo h t _
  | false =>
    have hw : s.wrlk = false := (Bool.or_eq_false_iff.mp hb).1
    have hroom := hc hb
    have hn := h.nrd_eq
    have h' : Ledger { s with nrd := s.nrd + 1, rd := Function.update s.rd t (s.rd t + 1) } := by
      refine ⟨?_, h.wrlk_eq, fun hw' ↦ ?_⟩
      · change (s.nrd + 1).toInt = (total id (Function.update s.rd t (s.rd t + 1)) : Nat)
        rw [total_rd_succ, toInt_succ (by omega), hn]
        rfl
      · exact absurd (hw.symm.trans hw') (by decide)
    rw [rdLock_of_open hb]
    exact ledger_moveTo h' t _

/-- A writer gets the lock only while no one holds it. -/
theorem ledger_wrExcl {s s' : Sys Tid} {t : Tid} {w : Option Tid} (h : Ledger s)
    (hs : s.wrExcl t w = some s') : Ledger s' := by
  unfold Sys.wrExcl at hs
  split at hs
  · cases hs
    exact ledger_moveTo h t _
  · next hb =>
    simp only [Sys.blocked, Bool.or_eq_true, not_or, Bool.not_eq_true, decide_eq_true_eq] at hb
    have ht := total_update Bool.toNat s.wr t true
    have hz : total Bool.toNat s.wr = 0 := by rw [h.wrlk_eq, hb.1]; rfl
    have hf := (total_eq_zero_iff _ _).mp hz t
    have hn := h.nrd_eq
    have hnone : s.nrd = 0 := by
      rw [int32_pos_iff] at hb
      rw [int32_eq_zero_iff]
      omega
    have h' : Ledger
        { s with wrlk := true, wrwt := false, wr := Function.update s.wr t true } := by
      refine ⟨h.nrd_eq, ?_, fun _ ↦ hnone⟩
      change total Bool.toNat (Function.update s.wr t true) = 1
      rw [hz, hf] at ht
      exact ht
    exact ledger_signal (ledger_moveTo h' t .idle) hs

theorem ledger_wrLock {s s' : Sys Tid} {t : Tid} {w : Option Tid} (h : Ledger s)
    (hs : s.wrLock t w = some s') : Ledger s' := by
  unfold Sys.wrLock at hs
  split at hs
  · cases hs
    exact ledger_moveTo h t _
  · have h' : Ledger { s with wrwt := true } := h.congr rfl rfl rfl rfl
    exact ledger_wrExcl h' hs

theorem ledger_rdUnlock {s : Sys Tid} {t : Tid} (h : Ledger s) (ht : 0 < s.rd t) :
    Ledger (s.rdUnlock t).2 := by
  have hp := h.nrd_pos ht
  have hw := h.wrlk_of_nrd hp
  have hu := total_update id s.rd t (s.rd t - 1)
  have hn := h.nrd_eq
  simp only [id_eq] at hu
  rw [int32_pos_iff] at hp
  have h' : Ledger { s with nrd := s.nrd - 1, rd := Function.update s.rd t (s.rd t - 1) } := by
    refine ⟨?_, h.wrlk_eq, fun hw' ↦ ?_⟩
    · change (s.nrd - 1).toInt = (total id (Function.update s.rd t (s.rd t - 1)) : Nat)
      rw [toInt_pred (by omega)]
      omega
    · exact absurd (hw.symm.trans hw') (by decide)
  rw [Sys.rdUnlock, if_neg (by rw [int32_eq_zero_iff]; omega)]
  dsimp only
  split
  · exact ledger_broadcast h'
  · exact h'

/-- When the only write hold is given up no thread has one. -/
theorem Ledger.release {s : Sys Tid} (h : Ledger s) {t : Tid} (ht : s.wr t = true) :
    total Bool.toNat (Function.update s.wr t false) = 0 := by
  have hu := total_update Bool.toNat s.wr t false
  rw [h.wrlk_eq, h.wrlk_of_wr ht, ht] at hu
  simpa using hu

theorem ledger_wrUnlock {s : Sys Tid} {t : Tid} (h : Ledger s) (ht : s.wr t = true) :
    Ledger (s.wrUnlock t).2 := by
  rw [Sys.wrUnlock, if_neg (by simp [h.wrlk_of_wr ht])]
  exact ledger_broadcast ⟨h.nrd_eq, h.release ht, fun hw ↦ by cases hw⟩

theorem ledger_wrDemote {s : Sys Tid} {t : Tid} (h : Ledger s) (ht : s.wr t = true) :
    Ledger (s.wrDemote t).2 := by
  have hn := h.nrd_eq
  have hz := h.alone (h.wrlk_of_wr ht)
  rw [Sys.wrDemote, if_neg (by simp [h.wrlk_of_wr ht])]
  refine ledger_broadcast ⟨?_, h.release ht, fun hw ↦ by cases hw⟩
  change (s.nrd + 1).toInt = (total id (Function.update s.rd t (s.rd t + 1)) : Nat)
  rw [total_rd_succ, toInt_succ (by rw [hz]; decide), hn]
  rfl

/-- In this step a reader finds the lock open to it. -/
def Reads (s : Sys Tid) : Act Tid → Prop
  | .rdLock t => s.pc t = .idle ∧ s.blocked .rdLock = false
  | .resume t _ => s.pc t = .woken .rdLock ∧ s.blocked .rdLock = false
  | _ => False

/-- What a step is, with the guard it passed. -/
theorem step_cases {s s' : Sys Tid} {a : Act Tid} (hs : step s a = some s') :
    (∃ t, (s.blocked .rdLock = false → Reads s a) ∧ s' = s.rdLock t) ∨
      (∃ t, 0 < s.rd t ∧ s' = (s.rdUnlock t).2) ∨
      (∃ t w, s.wrLock t w = some s') ∨
      (∃ t w, s.pc t = .woken .wrExcl ∧ s.wrExcl t w = some s') ∨
      (∃ t, s.wr t = true ∧ s' = (s.wrUnlock t).2) ∨
      (∃ t, s.wr t = true ∧ s' = (s.wrDemote t).2) ∨ ∃ t, s.wake t = some s' := by
  cases a with
  | rdLock t =>
    simp only [step, Option.ite_none_right_eq_some, Option.some.injEq] at hs
    exact .inl ⟨t, fun hb ↦ ⟨hs.1, hb⟩, hs.2.symm⟩
  | rdUnlock t =>
    simp only [step, Option.ite_none_right_eq_some, Option.some.injEq] at hs
    exact .inr (.inl ⟨t, hs.1.2, hs.2.symm⟩)
  | wrLock t w =>
    simp only [step, Option.ite_none_right_eq_some] at hs
    exact .inr (.inr (.inl ⟨t, w, hs.2⟩))
  | wrUnlock t =>
    simp only [step, Option.ite_none_right_eq_some, Option.some.injEq] at hs
    exact .inr (.inr (.inr (.inr (.inl ⟨t, hs.1.2, hs.2.symm⟩))))
  | wrDemote t =>
    simp only [step, Option.ite_none_right_eq_some, Option.some.injEq] at hs
    exact .inr (.inr (.inr (.inr (.inr (.inl ⟨t, hs.1.2, hs.2.symm⟩)))))
  | resume t w =>
    simp only [step] at hs
    split at hs
    · next hp =>
      cases hs
      exact .inl ⟨t, fun hb ↦ ⟨hp, hb⟩, rfl⟩
    · exact .inr (.inr (.inl ⟨t, w, hs⟩))
    · next hp => exact .inr (.inr (.inr (.inl ⟨t, w, hp, hs⟩)))
    · cases hs
  | spurious t => exact .inr (.inr (.inr (.inr (.inr (.inr ⟨t, hs⟩)))))

/-- A reader that finds the lock open takes it. -/
theorem step_of_reads {s : Sys Tid} {a : Act Tid} (h : Reads s a) :
    s.blocked .rdLock = false ∧ ∃ t, step s a = some (s.rdLock t) := by
  cases a with
  | rdLock t => exact ⟨h.2, t, if_pos h.1⟩
  | resume t w => exact ⟨h.2, t, by simp only [step, h.1]⟩
  | rdUnlock _ | wrLock _ _ | wrUnlock _ | wrDemote _ | spurious _ => exact h.elim

/-- No reader takes the read hold for which the count has no room. -/
def Careful (s : Sys Tid) (a : Act Tid) : Prop := Reads s a → total id s.rd + 1 < 2 ^ 31

theorem ledger_step {s s' : Sys Tid} {a : Act Tid} (h : Ledger s) (hc : Careful s a)
    (hs : step s a = some s') : Ledger s' := by
  obtain ⟨t, hr, rfl⟩ | ⟨t, ht, rfl⟩ | ⟨t, w, hs⟩ | ⟨t, w, -, hs⟩ | ⟨t, ht, rfl⟩ |
    ⟨t, ht, rfl⟩ | ⟨t, hs⟩ := step_cases hs
  · exact ledger_rdLock h t fun hb ↦ hc (hr hb)
  · exact ledger_rdUnlock h ht
  · exact ledger_wrLock h hs
  · exact ledger_wrExcl h hs
  · exact ledger_wrUnlock h ht
  · exact ledger_wrDemote h ht
  · exact ledger_wake h hs

/-- What the lock promises the threads in a state. -/
structure Exclusive (s : Sys Tid) : Prop where
  nrd_eq : s.nrd.toInt = ∑ t, (s.rd t : Int)
  wrlk_iff : s.wrlk = true ↔ ∃ t, s.wr t = true
  one_writer : ∀ t u, s.wr t = true → s.wr u = true → t = u
  no_reader : ∀ t u, s.wr t = true → s.rd u = 0

/-- The write hold of `t` has become a read hold, and no thread has the write lock. -/
structure Demoted (t : Tid) (s s' : Sys Tid) : Prop where
  had : s.wr t = true
  result : (s.wrDemote t).1 = true
  no_writer : ∀ u, s'.wr u = false
  reads : s'.rd = Function.update s.rd t (s.rd t + 1)

/-- A step leaves a state as promised, and a demotion exchanges the holds. -/
structure Keeps (s : Sys Tid) (a : Act Tid) : Prop where
  exclusive : ∀ s', step s a = some s' → Exclusive s'
  demoted : ∀ t s', a = .wrDemote t → step s a = some s' → Demoted t s s'

omit [DecidableEq Tid] in
theorem Ledger.exclusive {s : Sys Tid} (h : Ledger s) : Exclusive s := by
  refine ⟨?_, ⟨fun hw ↦ ?_, fun ⟨t, ht⟩ ↦ h.wrlk_of_wr ht⟩, fun t u ht hu ↦ ?_,
    fun t u ht ↦ ?_⟩
  · rw [h.nrd_eq]
    exact Nat.cast_sum _ _
  · by_contra hn
    have hz : total Bool.toNat s.wr = 0 := by
      rw [total_eq_zero_iff]
      intro t
      cases ht : s.wr t
      · rfl
      · exact absurd ⟨t, ht⟩ hn
    rw [h.wrlk_eq, hw] at hz
    cases hz
  · classical
    by_contra hn
    have hl := add_le_total Bool.toNat s.wr hn
    rw [ht, hu, h.wrlk_eq, h.wrlk_of_wr ht] at hl
    exact absurd hl (by decide)
  · by_contra hn
    have hw := h.wrlk_of_nrd (h.nrd_pos (Nat.pos_of_ne_zero hn))
    exact absurd (hw.symm.trans (h.wrlk_of_wr ht)) (by decide)

theorem Ledger.demoted {s s' : Sys Tid} (h : Ledger s) {t : Tid}
    (hs : step s (.wrDemote t) = some s') : Demoted t s s' := by
  simp only [step, Option.ite_none_right_eq_some, Option.some.injEq] at hs
  obtain ⟨⟨-, ht⟩, rfl⟩ := hs
  have hz := h.release ht
  have hd : s.wrDemote t = (true, { s with
      wrlk := false
      nrd := s.nrd + 1
      wr := Function.update s.wr t false
      rd := Function.update s.rd t (s.rd t + 1) }.broadcast) := by
    rw [Sys.wrDemote, if_neg (by simp [h.wrlk_of_wr ht])]
  refine ⟨ht, by rw [hd], fun u ↦ ?_, by rw [hd]; rfl⟩
  rw [hd]
  change Function.update s.wr t false u = false
  exact Bool.toNat_eq_zero.mp ((total_eq_zero_iff _ _).mp hz u)

/-- The read hold that is one too many for the count is not in it. -/
theorem not_exclusive_rdLock {s : Sys Tid} (hb : s.blocked .rdLock = false)
    (hn : 2 ^ 31 ≤ total id s.rd + 1) (t : Tid) : ¬Exclusive (s.rdLock t) := by
  intro h
  have hlt := Int32.toInt_lt (s.rdLock t).nrd
  have hsum : ∑ u, ((s.rdLock t).rd u : Int) = (total id s.rd + 1 : Nat) := by
    rw [← total_rd_succ s t, rdLock_of_open hb]
    exact (Nat.cast_sum _ _).symm
  rw [h.nrd_eq, hsum] at hlt
  omega

theorem Ledger.keeps_iff {s : Sys Tid} {a : Act Tid} (h : Ledger s) : Keeps s a ↔ Careful s a := by
  constructor
  · intro hk hr
    rcases step_of_reads hr with ⟨hb, t, hs⟩
    by_contra hn
    exact not_exclusive_rdLock hb (Nat.le_of_not_lt hn) t (hk.exclusive _ hs)
  · intro hc
    refine ⟨fun s' hs ↦ (ledger_step h hc hs).exclusive, ?_⟩
    rintro t s' rfl hs
    exact h.demoted hs

/-- Read holds and the write hold exclude each other along a run, and a demotion exchanges one for
the other with no writer in between, exactly if no reader comes in on top of `2 ^ 31 - 1` holds. -/
theorem rdWrLock_exclusive_iff (as : List (Act Tid)) :
    (machine Tid).Along Keeps (start Tid) as ↔ (machine Tid).Along Careful (start Tid) as := by
  apply Machine.along_congr (I := Ledger)
  · intro s a h
    exact h.keeps_iff
  · intro s a s' h hc hs
    exact ledger_step h hc hs
  · exact ledger_start

end Ledger

section Overflow

variable [DecidableEq Tid]

/-- One thread has taken `n` read holds. -/
def readBy (t : Tid) (n : Nat) : Sys Tid :=
  { start Tid with nrd := Int32.ofNat n, rd := Function.update (start Tid).rd t n }

theorem readBy_zero (t : Tid) : readBy t 0 = start Tid := by
  rw [readBy, start, Function.update_eq_self]
  rfl

theorem rdLock_readBy (t : Tid) (n : Nat) : (readBy t n).rdLock t = readBy t (n + 1) := by
  rw [rdLock_of_open rfl, readBy, readBy, int32_ofNat_succ, Sys.moveTo]
  simp only [Function.update_self, Function.update_idem]
  congr
  exact Function.update_eq_self t _

variable [Fintype Tid]

theorem step_readBy (t : Tid) (n : Nat) :
    step (readBy t n) (.rdLock t) = some (readBy t (n + 1)) := by
  have hp : (readBy t n).pc t = .idle := rfl
  rw [step, if_pos hp, rdLock_readBy]

theorem run_reads (t : Tid) (m n : Nat) :
    (machine Tid).run (readBy t m) (List.replicate n (.rdLock t)) = some (readBy t (m + n)) := by
  induction n generalizing m with
  | zero => rfl
  | succ n ih =>
    rw [List.replicate_succ, Machine.run_cons (step_readBy t m), ih, Nat.add_right_comm,
      Nat.add_assoc]

/-- Where nobody sleeps a writer that finds the lock open takes it. -/
theorem wrLock_of_open {s : Sys Tid} (hw : s.wrwt = false) (hb : s.blocked .wrExcl = false)
    (hp : ∀ u, s.pc u = .idle) (t : Tid) :
    s.wrLock t none =
      some ({ s with wrlk := true, wrwt := false, wr := Function.update s.wr t true }.moveTo t
        .idle) := by
  have hpc : Function.update s.pc t .idle = s.pc := by
    rw [← hp t]
    exact Function.update_eq_self t s.pc
  have hopen : ¬({ s with wrwt := true } : Sys Tid).blocked .wrExcl = true := by
    rw [show ({ s with wrwt := true } : Sys Tid).blocked .wrExcl = false from hb]
    exact Bool.false_ne_true
  have hwait : ¬s.blocked .wrWait = true := by
    rw [show s.blocked .wrWait = false from hw]
    exact Bool.false_ne_true
  rw [Sys.wrLock, if_neg hwait, Sys.wrExcl, if_neg hopen, Sys.signal, if_pos]
  · intro u
    simp [Sys.moveTo, hpc, hp u]

/-- The lock goes to a writer beside `2 ^ 31` read holds. -/
theorem rdWrLock_not_exclusive :
    ∃ s : Sys (Fin 2), (machine (Fin 2)).run (start (Fin 2))
        (List.replicate (2 ^ 31) (.rdLock 0) ++ [.wrLock 1 none]) = some s ∧
      s.rd 0 = 2 ^ 31 ∧ s.wr 1 = true ∧ ¬Exclusive s := by
  have hreads := run_reads (0 : Fin 2) 0 (2 ^ 31)
  rw [readBy_zero, Nat.zero_add] at hreads
  have hwrite := wrLock_of_open (s := readBy (0 : Fin 2) (2 ^ 31)) rfl (by decide) (fun _ ↦ rfl) 1
  refine ⟨_, (Machine.run_append hreads _).trans (Machine.run_cons hwrite), rfl, rfl, fun h ↦ ?_⟩
  exact absurd (h.no_reader 1 0 rfl) (by decide)

end Overflow

/-! ### Wake-ups -/

section Wakeful

/-- A thread in the second loop of `wr_lock`. -/
def Pc.Second : Pc → Prop
  | .asleep .wrExcl | .woken .wrExcl => True
  | _ => False

/-- One writer at most is in the second loop, and its flag is set. -/
structure Staged (s : Sys Tid) : Prop where
  wrwt : ∀ t, (s.pc t).Second → s.wrwt = true
  one : ∀ t u, (s.pc t).Second → (s.pc u).Second → t = u

/-- While no writer holds the lock, whoever sleeps has reason to. -/
def Wakeful (s : Sys Tid) : Prop :=
  s.wrlk = false → ∀ t l, s.pc t = .asleep l → s.blocked l = true

theorem staged_start : Staged (start Tid) := ⟨fun _ h ↦ h.elim, fun _ _ h ↦ h.elim⟩

theorem staged_broadcast {s : Sys Tid} (h : Staged s) : Staged s.broadcast := by
  have hs (t : Tid) (ht : (s.broadcast.pc t).Second) : (s.pc t).Second := by
    simp only [Sys.broadcast] at ht
    split at ht
    · next l hl =>
      rw [hl]
      cases l <;> exact ht
    · exact ht
  exact ⟨fun t ht ↦ h.wrwt t (hs t ht), fun t u ht hu ↦ h.one t u (hs t ht) (hs u hu)⟩

/-- Neither the stages nor the flag change. -/
theorem Staged.congr {s s' : Sys Tid} (h : Staged s) (hp : s'.pc = s.pc) (hw : s'.wrwt = s.wrwt) :
    Staged s' := by
  constructor
  · intro t ht
    rw [hp] at ht
    exact hw.trans (h.wrwt t ht)
  · intro t u ht hu
    rw [hp] at ht hu
    exact h.one t u ht hu

theorem wakeful_of_wrlk {s : Sys Tid} (h : s.wrlk = true) : Wakeful s :=
  fun hw ↦ absurd (h.symm.trans hw) (by decide)

/-- After a broadcast no one sleeps. -/
theorem wakeful_broadcast (s : Sys Tid) : Wakeful s.broadcast := by
  intro _ t l hp
  simp only [Sys.broadcast] at hp
  split at hp
  · cases hp
  · next hn => exact absurd hp (hn l)

/-- Closing loops to the threads that sleep in them wakes no one and needs to wake no one. -/
theorem Wakeful.mono {s s' : Sys Tid} (h : Wakeful s) (hp : s'.pc = s.pc)
    (hw : s'.wrlk = s.wrlk)
    (hb : ∀ t l, s.pc t = .asleep l → s.blocked l = true → s'.blocked l = true) : Wakeful s' := by
  intro hf t l ht
  rw [hp] at ht
  exact hb t l ht (h (hw.symm.trans hf) t l ht)

/-- A thread that is in the second loop is there alone. -/
theorem Staged.alone {s : Sys Tid} (h : Staged s) {t : Tid} (ht : (s.pc t).Second) :
    s.wrwt = true ∧ ∀ u, u ≠ t → ¬(s.pc u).Second :=
  ⟨h.wrwt t ht, fun u hut hu ↦ hut (h.one u t hu ht)⟩

variable [DecidableEq Tid]

/-- A thread leaves the second loop, or goes around it, or is the only one to come. -/
theorem Staged.moveTo {s : Sys Tid} (h : Staged s) (t : Tid) {p : Pc}
    (hp : p.Second → s.wrwt = true ∧ ∀ u, u ≠ t → ¬(s.pc u).Second) : Staged (s.moveTo t p) := by
  have hat (u : Tid) (hu : ((s.moveTo t p).pc u).Second) : u = t ∧ p.Second ∨ (s.pc u).Second := by
    by_cases hut : u = t
    · subst hut
      simp only [Sys.moveTo, Function.update_self] at hu
      exact .inl ⟨rfl, hu⟩
    · simp only [Sys.moveTo, Function.update_of_ne hut] at hu
      exact .inr hu
  constructor
  · intro u hu
    rcases hat u hu with ⟨-, hq⟩ | hu
    · exact (hp hq).1
    · exact h.wrwt u hu
  · intro u v hu hv
    rcases hat u hu with ⟨rfl, hq⟩ | hu'
    · by_contra hne
      rcases hat v hv with ⟨rfl, -⟩ | hv'
      · exact hne rfl
      · exact (hp hq).2 v (fun he ↦ hne he.symm) hv'
    · rcases hat v hv with ⟨rfl, hq⟩ | hv'
      · by_contra hne
        exact (hp hq).2 u hne hu'
      · exact h.one u v hu' hv'

/-- A thread may move where it does not sleep, or sleep on a loop that is closed to it. -/
theorem Wakeful.moveTo {s : Sys Tid} (h : Wakeful s) (t : Tid) {p : Pc}
    (hp : ∀ l, p = .asleep l → s.blocked l = true) : Wakeful (s.moveTo t p) := by
  intro hw u l hu
  by_cases hut : u = t
  · subst hut
    simp only [Sys.moveTo, Function.update_self] at hu
    exact hp l hu
  · simp only [Sys.moveTo, Function.update_of_ne hut] at hu
    exact h hw u l hu

theorem staged_wake {s s' : Sys Tid} {t : Tid} (h : Staged s) (hs : s.wake t = some s') :
    Staged s' := by
  obtain ⟨l, hl, rfl⟩ := wake_cases hs
  refine h.moveTo t fun hp ↦ h.alone ?_
  rw [hl]
  cases l <;> exact hp

theorem wakeful_wake {s s' : Sys Tid} {t : Tid} (h : Wakeful s) (hs : s.wake t = some s') :
    Wakeful s' := by
  obtain ⟨l, -, rfl⟩ := wake_cases hs
  exact h.moveTo t (fun _ hl ↦ by cases hl)

/-- Nobody has lost a wake-up, and the second loop is in order. -/
structure Alert (s : Sys Tid) : Prop where
  staged : Staged s
  wakeful : Wakeful s

theorem alert_rdLock {s : Sys Tid} (h : Alert s) (t : Tid) : Alert (s.rdLock t) := by
  cases hb : s.blocked .rdLock with
  | true =>
    rw [Sys.rdLock, if_pos hb]
    refine ⟨h.staged.moveTo t fun hp ↦ hp.elim, h.wakeful.moveTo t fun l hp ↦ ?_⟩
    cases hp
    exact hb
  | false =>
    have hwt : s.wrwt = false := (Bool.or_eq_false_iff.mp hb).2
    have hs : Staged { s with nrd := s.nrd + 1, rd := Function.update s.rd t (s.rd t + 1) } :=
      h.staged.congr rfl rfl
    have hw : Wakeful { s with nrd := s.nrd + 1, rd := Function.update s.rd t (s.rd t + 1) } := by
      refine h.wakeful.mono rfl rfl fun u l hu hl ↦ ?_
      cases l with
      | rdLock | wrWait => exact hl
      | wrExcl =>
        -- the count may wrap here, but a writer asleep in the second loop keeps readers out
        have hset := h.staged.wrwt u (by rw [hu]; trivial)
        exact absurd (hwt.symm.trans hset) (by decide)
    rw [rdLock_of_open hb]
    exact ⟨hs.moveTo t fun hp ↦ hp.elim, hw.moveTo t fun _ hp ↦ by cases hp⟩

variable [Fintype Tid]

theorem staged_signal {s s' : Sys Tid} {w : Option Tid} (h : Staged s)
    (hs : s.signal w = some s') : Staged s' := by
  cases w with
  | none =>
    simp only [Sys.signal, Option.ite_none_right_eq_some, Option.some.injEq] at hs
    rw [← hs.2]
    exact h
  | some t => exact staged_wake h hs

theorem alert_wrExcl {s s' : Sys Tid} {t : Tid} {w : Option Tid} (h : Alert s)
    (ht : s.wrwt = true ∧ ∀ u, u ≠ t → ¬(s.pc u).Second) (hs : s.wrExcl t w = some s') :
    Alert s' := by
  unfold Sys.wrExcl at hs
  split at hs
  · next hb =>
    cases hs
    refine ⟨h.staged.moveTo t fun _ ↦ ht, h.wakeful.moveTo t fun l hp ↦ ?_⟩
    cases hp
    exact hb
  · -- `wrwt_` is dropped here with one signal, but `wrlk_` has been set
    have hnone (u : Tid) : ¬(Function.update s.pc t Pc.idle u).Second := by
      by_cases hut : u = t
      · rw [hut, Function.update_self]
        exact id
      · rw [Function.update_of_ne hut]
        exact ht.2 u hut
    constructor
    · exact staged_signal ⟨fun u hu ↦ (hnone u hu).elim, fun u _ hu ↦ (hnone u hu).elim⟩ hs
    · obtain rfl | ⟨u, l, -, rfl⟩ := signal_cases hs
      · exact wakeful_of_wrlk rfl
      · exact wakeful_of_wrlk rfl

theorem alert_wrLock {s s' : Sys Tid} {t : Tid} {w : Option Tid} (h : Alert s)
    (hs : s.wrLock t w = some s') : Alert s' := by
  unfold Sys.wrLock at hs
  split at hs
  · next hb =>
    cases hs
    refine ⟨h.staged.moveTo t fun hp ↦ hp.elim, h.wakeful.moveTo t fun l hp ↦ ?_⟩
    cases hp
    exact hb
  · next hb =>
    have hwt : s.wrwt = false := Bool.not_eq_true _ ▸ hb
    have hnone (u : Tid) : ¬(s.pc u).Second := fun hu ↦
      absurd (hwt.symm.trans (h.staged.wrwt u hu)) (by decide)
    have h' : Alert { s with wrwt := true } := by
      refine ⟨⟨fun _ _ ↦ rfl, h.staged.one⟩, h.wakeful.mono rfl rfl fun u l _ hl ↦ ?_⟩
      cases l with
      | rdLock => exact Bool.or_true _
      | wrWait => rfl
      | wrExcl => exact hl
    exact alert_wrExcl h' ⟨rfl, fun u _ ↦ hnone u⟩ hs

omit [Fintype Tid] in
theorem alert_rdUnlock {s : Sys Tid} (h : Alert s) (t : Tid) : Alert (s.rdUnlock t).2 := by
  unfold Sys.rdUnlock
  split
  · exact h
  · dsimp only
    have hs : Staged { s with nrd := s.nrd - 1, rd := Function.update s.rd t (s.rd t - 1) } :=
      h.staged.congr rfl rfl
    split
    · exact ⟨staged_broadcast hs, wakeful_broadcast _⟩
    · next hn =>
      refine ⟨hs, h.wakeful.mono rfl rfl fun u l _ hl ↦ ?_⟩
      cases l with
      | rdLock | wrWait => exact hl
      | wrExcl =>
        simp only [Sys.blocked, Bool.or_eq_true, decide_eq_true_eq, int32_pos_iff] at hl ⊢
        rw [int32_eq_zero_iff] at hn
        refine hl.imp_right fun hp ↦ ?_
        rw [toInt_pred (by omega)] at hn ⊢
        omega

omit [Fintype Tid] in
theorem alert_wrUnlock {s : Sys Tid} (h : Alert s) (t : Tid) : Alert (s.wrUnlock t).2 := by
  unfold Sys.wrUnlock
  split
  · exact h
  · exact ⟨staged_broadcast (h.staged.congr rfl rfl), wakeful_broadcast _⟩

omit [Fintype Tid] in
theorem alert_wrDemote {s : Sys Tid} (h : Alert s) (t : Tid) : Alert (s.wrDemote t).2 := by
  unfold Sys.wrDemote
  split
  · exact h
  · exact ⟨staged_broadcast (h.staged.congr rfl rfl), wakeful_broadcast _⟩

theorem alert_step {s s' : Sys Tid} {a : Act Tid} (h : Alert s) (hs : step s a = some s') :
    Alert s' := by
  obtain ⟨t, -, rfl⟩ | ⟨t, -, rfl⟩ | ⟨t, w, hs⟩ | ⟨t, w, hp, hs⟩ | ⟨t, -, rfl⟩ | ⟨t, -, rfl⟩ |
    ⟨t, hs⟩ := step_cases hs
  · exact alert_rdLock h t
  · exact alert_rdUnlock h t
  · exact alert_wrLock h hs
  · exact alert_wrExcl h (h.staged.alone (by rw [hp]; trivial)) hs
  · exact alert_wrUnlock h t
  · exact alert_wrDemote h t
  · exact ⟨staged_wake h.staged hs, wakeful_wake h.wakeful hs⟩

/-- No reachable state has the lock free of a writer, a thread asleep, and the condition of
that thread's loop already false. -/
theorem rdWrLock_no_lost_wakeup {s : Sys Tid} (h : (machine Tid).Reachable s) :
    ¬(s.wrlk = false ∧ ∃ t l, s.pc t = .asleep l ∧ s.blocked l = false) := by
  have hi : Alert s := by
    refine h.invariant (I := Alert) ?_ fun _ _ _ hi hs ↦ alert_step hi hs
    rintro _ rfl
    exact ⟨staged_start, fun _ _ _ hp ↦ by cases hp⟩
  rintro ⟨hw, t, l, hp, hb⟩
  exact absurd (hi.wakeful hw t l hp) (by simp [hb])

/-- The signal of a writer goes to a reader, which falls asleep again, while the writer it
was meant for sleeps on; the unlock wakes both. -/
theorem rdWrLock_no_lost_wakeup_eaten :
    ∃ s : Sys (Fin 4), (machine (Fin 4)).run (start (Fin 4))
        [.rdLock 0, .wrLock 1 none, .wrLock 2 none, .rdLock 3, .rdUnlock 0, .resume 3 none,
          .resume 2 none, .resume 1 (some 3), .resume 3 none, .wrUnlock 1] = some s ∧
      s.wrlk = false ∧
      ¬(s.wrlk = false ∧ ∃ t l, s.pc t = .asleep l ∧ s.blocked l = false) := by
  obtain ⟨s, hs, hw⟩ : ∃ s : Sys (Fin 4), (machine (Fin 4)).run (start (Fin 4))
        [.rdLock 0, .wrLock 1 none, .wrLock 2 none, .rdLock 3, .rdUnlock 0, .resume 3 none,
          .resume 2 none, .resume 1 (some 3), .resume 3 none, .wrUnlock 1] = some s ∧
      s.wrlk = false := ⟨_, rfl, rfl⟩
  exact ⟨s, hs, hw, rdWrLock_no_lost_wakeup (Machine.Reachable.run (.init rfl) hs)⟩

end Wakeful

end CtrlrFx.Os.RdWrLock
