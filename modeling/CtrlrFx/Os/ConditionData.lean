import CtrlrFx.Base.Mesa

/-!
# Data with a condition variable

`CtrlrFx/ConditionData.h`: a value that threads wait for and set, under the mutex of a condition
variable. All calls but those named `lock_` are made while the mutex is held; a `lock_` call is
one of these between locking and unlocking.
-/

namespace CtrlrFx.Os.ConditionData
open Base Mesa

/-- Calls of the class, with those of `ConditionVar` that it shows. Waits with a duration end
when that runs out. -/
inductive Op (T : Type) where
  | wait (val : T)
  | waitNot (val : T)
  | waitFor (val : T)
  | waitNotFor (val : T)
  | signal (val : T)
  | broadcast (val : T)
  | waitAndSignal (matchVal newVal : T)
  | waitAndBroadcast (matchVal newVal : T)
  | waitNotAndSignal (matchVal newVal : T)
  | waitNotAndBroadcast (matchVal newVal : T)
  | signalVar
  | broadcastVar
  deriving DecidableEq, Repr

namespace Op

variable {T : Type} [DecidableEq T]

/-- A loop that waits for the value, and what follows it. -/
def cmd : Op T → Cmd T
  /- `CtrlrFx/ConditionData.h:123–156` -/
  | wait val => { guard := (· = val), update := id, wake := .none, timed := false }
  | waitNot val => { guard := (· ≠ val), update := id, wake := .none, timed := false }
  /- `CtrlrFx/ConditionData.h:159–194` -/
  | waitFor val => { guard := (· = val), update := id, wake := .none, timed := true }
  | waitNotFor val => { guard := (· ≠ val), update := id, wake := .none, timed := true }
  /- `CtrlrFx/ConditionData.h:197–224` -/
  | signal val => { guard _ := true, update _ := val, wake := .one, timed := false }
  | broadcast val => { guard _ := true, update _ := val, wake := .all, timed := false }
  /- `CtrlrFx/ConditionData.h:226–262` -/
  | waitAndSignal matchVal newVal =>
    { guard := (· = matchVal), update _ := newVal, wake := .one, timed := false }
  | waitAndBroadcast matchVal newVal =>
    { guard := (· = matchVal), update _ := newVal, wake := .all, timed := false }
  | waitNotAndSignal matchVal newVal =>
    { guard := (· ≠ matchVal), update _ := newVal, wake := .one, timed := false }
  | waitNotAndBroadcast matchVal newVal =>
    { guard := (· ≠ matchVal), update _ := newVal, wake := .all, timed := false }
  | signalVar => { guard _ := true, update := id, wake := .one, timed := false }
  | broadcastVar => { guard _ := true, update := id, wake := .all, timed := false }

/-- What a call is for: the value that it makes of `v`, where it returns at `v`. -/
def apply (v : T) : Op T → Option T
  | wait val | waitFor val => if v = val then some v else none
  | waitNot val | waitNotFor val => if v = val then none else some v
  | signal val | broadcast val => some val
  | waitAndSignal matchVal newVal | waitAndBroadcast matchVal newVal =>
    if v = matchVal then some newVal else none
  | waitNotAndSignal matchVal newVal | waitNotAndBroadcast matchVal newVal =>
    if v = matchVal then none else some newVal
  | signalVar | broadcastVar => some v

/-- The calls do what they are for. -/
theorem apply_eq (v : T) (op : Op T) :
    op.apply v = if op.cmd.guard v then some (op.cmd.update v) else none := by
  cases op with
  | waitNot val | waitNotFor val | waitNotAndSignal val _ | waitNotAndBroadcast val _ =>
    by_cases h : v = val <;> simp [apply, cmd, h]
  | _ => simp [apply, cmd]

/-- Calls that wake nobody leave the value as it is. -/
theorem update_of_quiet {op : Op T} (h : op.cmd.wake = .none) (v : T) : op.cmd.update v = v := by
  cases op with
  | wait val | waitNot val | waitFor val | waitNotFor val => rfl
  | _ => cases h

end Op

section

variable {ι T : Type} [DecidableEq ι] [Fintype ι] [DecidableEq T]

/-- Any number of threads that use an object whose value is `v`. -/
def system (v : T) : Machine (Mesa.State ι (Op T) T) (Act ι (Op T)) := machine Op.cmd v

/-- In every run the calls that did not time out are one after another what they are for,
beginning with the first value and ending with that which is there; and a thread that returns
from such a call has the lock, with the value as its call left it. -/
theorem calls_atomic (v : T) {s : Mesa.State ι (Op T) T} (h : (system v).Reachable s) :
    s.log.foldlM (fun w c ↦ c.2.apply w) v = some s.val ∧
      ∀ t op, s.threads.pc t = .waking op →
        s.threads.holder = some t ∧ ∃ w, op.apply w = some s.val := by
  have hi : Inv Op.cmd s := inv_of_reachable h
  refine ⟨?_, ?_⟩
  · have hr : (cell Op.cmd v).run v (s.log.map Prod.snd) = some s.val := refines h
    rw [← hr]
    generalize s.log = log
    -- the value on its own takes the same calls
    have hrun : ∀ w, log.foldlM (fun w c ↦ c.2.apply w) w =
        (cell Op.cmd v).run w (log.map Prod.snd) := by
      induction log with
      | nil => exact fun _ ↦ rfl
      | cons c log ih =>
        intro w
        rw [List.foldlM_cons, List.map_cons, Machine.run, Op.apply_eq]
        change _ = ((if c.2.cmd.guard w then some (c.2.cmd.update w) else none : Option T)).bind _
        by_cases hg : c.2.cmd.guard w = true
        · rw [if_pos hg]
          exact ih _
        · rw [if_neg hg]
          rfl
    exact hrun v
  · intro t op hp
    refine ⟨hi.fits.holds (by rw [hp]; trivial), ?_⟩
    rcases hi.at_pc hp with ⟨w, hg, hv⟩
    exact ⟨w, by rw [Op.apply_eq, if_pos hg, hv]⟩

/-- A thread waits for 1 and takes it back to 0, and another sets it meanwhile. -/
def handover : List (Act (Fin 2) (Op Nat)) :=
  [.lock 0, .call 0 (.waitAndSignal 1 0), .test 0, .block 0, .lock 1, .call 1 (.broadcast 1),
    .test 1, .act 1, .wake 1 none, .unlock 1, .reenter 0, .test 0, .act 0]

theorem calls_atomic_handover : ∃ s, (system 0).run (start 0) handover = some s ∧
    s.log.foldlM (fun w c ↦ c.2.apply w) 0 = some s.val ∧
      ∀ t op, s.threads.pc t = .waking op →
        s.threads.holder = some t ∧ ∃ w, op.apply w = some s.val := by
  have hsome : ((system 0).run (start 0) handover).isSome := by decide
  rcases Option.isSome_iff_exists.mp hsome with ⟨s, hs⟩
  exact ⟨s, hs, calls_atomic 0 ((Machine.Reachable.init rfl).run hs)⟩

/-- No thread sleeps on a value that is there, while nobody is about to wake it, exactly in the
runs in which every `signal` leaves no other thread asleep that waits for the value there is. -/
theorem no_lost_wakeup_iff (v : T) (as : List (Act ι (Op T))) :
    (system v).Along (fun s a ↦ ∀ s', (system v).step s a = some s' → Alert Op.cmd s')
        (start v) as ↔ (system v).Along (Enough Op.cmd) (start v) as :=
  alert_iff (fun _ w h ↦ Op.update_of_quiet h w) v as

end

/-- One thread waits for 1 and another for 2. The signal of 2 wakes the first one, which sleeps
again. -/
example : ((system (ι := Fin 3) 0).run (start 0) [.lock 0, .call 0 (.wait 1), .test 0, .block 0,
    .lock 1, .call 1 (.wait 2), .test 1, .block 1, .lock 2, .call 2 (.signal 2), .test 2, .act 2,
    .wake 2 (some 0), .unlock 2, .reenter 0, .test 0, .block 0]).map
      (fun s ↦ (s.val, s.threads.holder, s.threads.pc 1)) =
    some (2, none, .asleep (.wait 2)) := by
  decide

end CtrlrFx.Os.ConditionData
