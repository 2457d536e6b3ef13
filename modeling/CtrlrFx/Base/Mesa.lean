import CtrlrFx.Base.Monitor
import Mathlib.Data.Fintype.Basic

/-!
# Calls that wait under a lock

Threads share a value behind a lock with a condition variable. A call waits in a loop until its
guard holds, updates the value and wakes none, one or all of those that sleep; a thread that was
woken, or that woke without a reason, takes the lock and tests its guard again. Seen from outside
every call is one step of the value, and whether a wake-up can be lost depends on what the calls
wake that wake only one.
-/

namespace CtrlrFx.Base.Mesa
open Monitor

universe u v w

/-- Whom a call wakes. -/
inductive Wake where
  | none
  | one
  | all
  deriving DecidableEq, Repr

/-- What a call waits for, what it does then, and whether its waits may time out. -/
structure Cmd (V : Type w) where
  guard : V → Bool
  update : V → V
  wake : Wake
  timed : Bool

/-- Places of a thread. It is `inside` where it holds the lock between calls. A wait that has timed
out ends the call. -/
inductive Pc (γ : Type v) where
  | away
  | inside
  | testing (c : γ)
  | failed (c : γ)
  | asleep (c : γ)
  | woken (c : γ)
  | expired (c : γ)
  | acting (c : γ)
  | waking (c : γ)
  deriving DecidableEq, Repr

namespace Pc

variable {γ : Type v}

/-- Places at which a thread holds the lock. -/
def Holds : Pc γ → Prop
  | inside | testing _ | failed _ | acting _ | waking _ => True
  | away | asleep _ | woken _ | expired _ => False

/-- The place after a wake-up of all. -/
def wake : Pc γ → Pc γ
  | asleep c => woken c
  | p => p

@[simp] theorem holds_wake (p : Pc γ) : p.wake.Holds ↔ p.Holds := by
  cases p <;> exact Iff.rfl

end Pc

/-- The threads, the value, and the calls in the order of their updates. -/
structure State (ι : Type u) (γ : Type v) (V : Type w) where
  threads : Threads ι (Pc γ)
  val : V
  log : List (ι × γ)

/-- Steps of threads. A call that wakes one chooses whom, if anyone sleeps. -/
inductive Act (ι : Type u) (γ : Type v) where
  | lock (t : ι)
  | unlock (t : ι)
  | call (t : ι) (c : γ)
  | test (t : ι)
  | block (t : ι)
  | act (t : ι)
  | wake (t : ι) (u : Option ι)
  | spurious (t : ι)
  | expire (t : ι)
  | reenter (t : ι)
  deriving DecidableEq, Repr

variable {ι : Type u} {γ : Type v} {V : Type w}

namespace State

/-- Whether a thread sleeps. -/
def sleeps (s : State ι γ V) (t : ι) : Bool :=
  match s.threads.pc t with
  | .asleep _ => true
  | _ => false

/-- All that sleep are woken. -/
def wakeAll (s : State ι γ V) : State ι γ V :=
  { s with threads := { s.threads with pc := fun t ↦ (s.threads.pc t).wake } }

end State

/-- Nobody holds the lock, and the value is `v`. -/
def start (v : V) : State ι γ V :=
  { threads := { holder := none, pc := fun _ ↦ .away }, val := v, log := [] }

/-- What a thread at `p` knows of the value `v`. -/
def Pc.Ok (g : γ → Cmd V) (v : V) : Pc γ → Prop
  | failed c => (g c).guard v = false
  | acting c => (g c).guard v = true
  | waking c => ∃ w, (g c).guard w = true ∧ v = (g c).update w
  | away | inside | testing _ | asleep _ | woken _ | expired _ => True

theorem Pc.ok_of_not_holds {p : Pc γ} (h : ¬p.Holds) (g : γ → Cmd V) (v : V) : p.Ok g v := by
  cases p <;> first | trivial | exact absurd trivial h

/-- What the places of threads say about the lock and the value. -/
structure Inv (g : γ → Cmd V) (s : State ι γ V) : Prop where
  fits : s.threads.Fits Pc.Holds
  ok : ∀ t, (s.threads.pc t).Ok g s.val

theorem sleeps_iff {s : State ι γ V} {t : ι} :
    s.sleeps t = true ↔ ∃ c, s.threads.pc t = .asleep c := by
  unfold State.sleeps
  cases s.threads.pc t <;> simp

section

variable {g : γ → Cmd V} {s : State ι γ V} {t : ι}

namespace Inv

theorem start (v : V) : Inv g (Mesa.start v : State ι γ V) :=
  ⟨Threads.fits_start id, fun _ ↦ trivial⟩

theorem wakeAll (hi : Inv g s) : Inv g s.wakeAll := by
  refine ⟨hi.fits.map fun u ↦ Pc.holds_wake _, fun u ↦ ?_⟩
  have hu := hi.ok u
  change (s.threads.pc u).wake.Ok g s.val
  cases hp : s.threads.pc u <;> rw [hp] at hu <;> exact hu

/-- What a thread knows at its place. -/
theorem at_pc (hi : Inv g s) {p : Pc γ} (hp : s.threads.pc t = p) : p.Ok g s.val := by
  have ht := hi.ok t
  rwa [hp] at ht

/-- While a thread holds the lock at its place, no other is at such a place. -/
theorem alone (hi : Inv g s) (ht : (s.threads.pc t).Holds) {u : ι}
    (hu : (s.threads.pc u).Holds) : u = t :=
  hi.fits.unique hu ht

end Inv

end

/-! ### Sleep -/

section

variable {g : γ → Cmd V} {s : State ι γ V}

variable (g) in
/-- A thread at `p` sleeps although its guard holds of `v`. -/
def Pc.overdue (v : V) : Pc γ → Bool
  | asleep c => (g c).guard v
  | _ => false

variable (g) in
/-- A thread at `p` is about to wake others. -/
def Pc.notifying : Pc γ → Bool
  | waking c => (g c).wake ≠ .none
  | _ => false

variable (g) in
/-- No thread sleeps although its guard holds, unless some are about to be woken. -/
def Alert (s : State ι γ V) : Prop :=
  ∀ t, (s.threads.pc t).overdue g s.val = true → ∃ u, (s.threads.pc u).notifying g = true

theorem Pc.holds_of_notifying {p : Pc γ} (h : p.notifying g = true) : p.Holds := by
  cases p with
  | waking c => trivial
  | _ => cases h

theorem Pc.overdue_wake (v : V) (p : Pc γ) : p.wake.overdue g v = false := by
  cases p <;> rfl

theorem alert_start (v : V) : Alert g (start v : State ι γ V) := fun _ h ↦ by cases h

end

variable [DecidableEq ι]

namespace State

/-- Thread `t` goes to `p`. -/
def move (s : State ι γ V) (t : ι) (p : Pc γ) : State ι γ V :=
  { s with threads := s.threads.move t p }

/-- Thread `t` takes the lock and goes to `p`. -/
def enter (s : State ι γ V) (t : ι) (p : Pc γ) : State ι γ V :=
  { s with threads := s.threads.enter t p }

/-- Thread `t` gives the lock back and goes to `p`. -/
def leave (s : State ι γ V) (t : ι) (p : Pc γ) : State ι γ V :=
  { s with threads := s.threads.leave t p }

/-- Thread `t` is woken, if it sleeps. -/
def wakeOne (s : State ι γ V) (t : ι) : State ι γ V := s.move t (s.threads.pc t).wake

end State

/-! ### What a step can do -/

/-- The effect of a step on one thread and the value. Every other step than an update and a
wake-up moves one thread from a place to another. -/
inductive Effect (g : γ → Cmd V) (s : State ι γ V) : Act ι γ → State ι γ V → Prop where
  | lock {t : ι} (hf : s.threads.holder = none) (hp : s.threads.pc t = .away) :
      Effect g s (.lock t) (s.enter t .inside)
  | unlock {t : ι} (hp : s.threads.pc t = .inside) : Effect g s (.unlock t) (s.leave t .away)
  | call {t : ι} {c : γ} (hp : s.threads.pc t = .inside) :
      Effect g s (.call t c) (s.move t (.testing c))
  | pass {t : ι} {c : γ} (hp : s.threads.pc t = .testing c) (hg : (g c).guard s.val = true) :
      Effect g s (.test t) (s.move t (.acting c))
  | fail {t : ι} {c : γ} (hp : s.threads.pc t = .testing c) (hg : (g c).guard s.val = false) :
      Effect g s (.test t) (s.move t (.failed c))
  | block {t : ι} {c : γ} (hp : s.threads.pc t = .failed c) :
      Effect g s (.block t) (s.leave t (.asleep c))
  | act {t : ι} {c : γ} (hp : s.threads.pc t = .acting c) :
      Effect g s (.act t)
        { s.move t (.waking c) with val := (g c).update s.val, log := s.log ++ [(t, c)] }
  | wakeNone {t : ι} {c : γ} (hp : s.threads.pc t = .waking c) (hw : (g c).wake = .none) :
      Effect g s (.wake t none) (s.move t .inside)
  | wakeNobody {t : ι} {c : γ} (hp : s.threads.pc t = .waking c) (hw : (g c).wake = .one)
      (hn : ∀ v, s.sleeps v = false) : Effect g s (.wake t none) (s.move t .inside)
  | wakeOne {t v : ι} {c c' : γ} (hp : s.threads.pc t = .waking c) (hw : (g c).wake = .one)
      (hv : s.threads.pc v = .asleep c') :
      Effect g s (.wake t (some v)) ((s.move v (.woken c')).move t .inside)
  | wakeAll {t : ι} {c : γ} (hp : s.threads.pc t = .waking c) (hw : (g c).wake = .all) :
      Effect g s (.wake t none) (s.wakeAll.move t .inside)
  | spurious {t : ι} {c : γ} (hp : s.threads.pc t = .asleep c) :
      Effect g s (.spurious t) (s.move t (.woken c))
  | expire {t : ι} {c : γ} (hp : s.threads.pc t = .asleep c) (ht : (g c).timed = true) :
      Effect g s (.expire t) (s.move t (.expired c))
  | retest {t : ι} {c : γ} (hf : s.threads.holder = none) (hp : s.threads.pc t = .woken c) :
      Effect g s (.reenter t) (s.enter t (.testing c))
  | timeout {t : ι} {c : γ} (hf : s.threads.holder = none) (hp : s.threads.pc t = .expired c) :
      Effect g s (.reenter t) (s.enter t .inside)

section

variable {g : γ → Cmd V} {s s' : State ι γ V} {t : ι} {p : Pc γ}

namespace Inv

/-- A new place of a thread that fits the lock and the value. -/
theorem of_update (hi : Inv g s) {th : Threads ι (Pc γ)} (hf : th.Fits Pc.Holds)
    (hpc : th.pc = Function.update s.threads.pc t p) (hp : p.Ok g s.val) :
    Inv g { s with threads := th } := by
  refine ⟨hf, fun u ↦ ?_⟩
  change (th.pc u).Ok g s.val
  rw [hpc]
  by_cases hu : u = t
  · rwa [hu, Function.update_self]
  · rw [Function.update_of_ne hu]
    exact hi.ok u

theorem move (hi : Inv g s) (hh : p.Holds ↔ (s.threads.pc t).Holds) (hp : p.Ok g s.val) :
    Inv g (s.move t p) :=
  hi.of_update (hi.fits.move hh) rfl hp

theorem enter (hi : Inv g s) (hf : s.threads.holder = none) (hh : p.Holds) (hp : p.Ok g s.val) :
    Inv g (s.enter t p) :=
  hi.of_update (hi.fits.enter hf hh) rfl hp

theorem leave (hi : Inv g s) (ht : (s.threads.pc t).Holds) (hh : ¬p.Holds) :
    Inv g (s.leave t p) :=
  hi.of_update (hi.fits.leave ht hh) rfl (Pc.ok_of_not_holds hh g s.val)

/-- The thread that updates the value is the only one that knows anything of it. -/
theorem act (hi : Inv g s) {c : γ} (hp : s.threads.pc t = .acting c) (log : List (ι × γ)) :
    Inv g { s.move t (.waking c) with val := (g c).update s.val, log } := by
  refine ⟨hi.fits.move (by rw [hp]; exact Iff.rfl), fun u ↦ ?_⟩
  change (Function.update s.threads.pc t (.waking c) u).Ok g _
  by_cases hu : u = t
  · rw [hu, Function.update_self]
    exact ⟨s.val, hi.at_pc hp, rfl⟩
  · rw [Function.update_of_ne hu]
    apply Pc.ok_of_not_holds
    intro hh
    exact hu (hi.alone (by rw [hp]; trivial) hh)

end Inv

theorem Inv.effect (hi : Inv g s) {a : Act ι γ} (he : Effect g s a s') : Inv g s' := by
  have holds {q : Pc γ} {u : ι} (hu : s.threads.pc u = q) (hq : q.Holds) :
      (s.threads.pc u).Holds := by rwa [hu]
  have same {q r : Pc γ} {u : ι} (hu : s.threads.pc u = q) (hr : r.Holds ↔ q.Holds) :
      r.Holds ↔ (s.threads.pc u).Holds := by rwa [hu]
  cases he with
  | lock hf hp => exact hi.enter hf trivial trivial
  | unlock hp => exact hi.leave (holds hp trivial) id
  | call hp => exact hi.move (same hp Iff.rfl) trivial
  | pass hp hg => exact hi.move (same hp Iff.rfl) hg
  | fail hp hg => exact hi.move (same hp Iff.rfl) hg
  | block hp => exact hi.leave (holds hp trivial) id
  | act hp => exact hi.act hp _
  | wakeNone hp hw => exact hi.move (same hp Iff.rfl) trivial
  | wakeNobody hp hw hn => exact hi.move (same hp Iff.rfl) trivial
  | @wakeOne t v c c' hp hw hv =>
    have hne : t ≠ v := by
      rintro rfl
      rw [hp] at hv
      cases hv
    have hmove : Inv g (s.move v (.woken c')) := hi.move (same hv Iff.rfl) trivial
    refine hmove.move ?_ trivial
    change _ ↔ (Function.update s.threads.pc v (.woken c') t).Holds
    rw [Function.update_of_ne hne]
    exact same hp Iff.rfl
  | wakeAll hp hw =>
    refine hi.wakeAll.move ?_ trivial
    exact iff_of_true trivial ((Pc.holds_wake _).mpr (holds hp trivial))
  | spurious hp => exact hi.move (same hp Iff.rfl) trivial
  | expire hp ht => exact hi.move (same hp Iff.rfl) trivial
  | retest hf hp => exact hi.enter hf trivial trivial
  | timeout hf hp => exact hi.enter hf trivial trivial

/-- A move of a thread that is not about to wake others, to a place where it is not overdue. -/
theorem Alert.of_update (ha : Alert g s) {t : ι} {p : Pc γ}
    (hpc : s'.threads.pc = Function.update s.threads.pc t p) (hv : s'.val = s.val)
    (hp : p.overdue g s.val = false) (ht : (s.threads.pc t).notifying g = false) :
    Alert g s' := by
  intro u hu
  rw [hpc, hv] at hu
  have hut : u ≠ t := by
    rintro rfl
    rw [Function.update_self, hp] at hu
    cases hu
  rw [Function.update_of_ne hut] at hu
  rcases ha u hu with ⟨w, hw⟩
  refine ⟨w, ?_⟩
  have hwt : w ≠ t := by
    rintro rfl
    rw [ht] at hw
    cases hw
  rwa [hpc, Function.update_of_ne hwt]

end

/-! ### Runs -/

variable [Fintype ι] [DecidableEq γ]

/-- One step, where `g` says what the calls are. -/
def step (g : γ → Cmd V) (s : State ι γ V) : Act ι γ → Option (State ι γ V)
  | .lock t =>
    if s.threads.holder = none ∧ s.threads.pc t = .away then some (s.enter t .inside) else none
  | .unlock t => if s.threads.pc t = .inside then some (s.leave t .away) else none
  | .call t c => if s.threads.pc t = .inside then some (s.move t (.testing c)) else none
  | .test t =>
    match s.threads.pc t with
    | .testing c => some (s.move t (if (g c).guard s.val then .acting c else .failed c))
    | _ => none
  | .block t =>
    match s.threads.pc t with
    | .failed c => some (s.leave t (.asleep c))
    | _ => none
  | .act t =>
    match s.threads.pc t with
    | .acting c =>
      some { s.move t (.waking c) with val := (g c).update s.val, log := s.log ++ [(t, c)] }
    | _ => none
  | .wake t u =>
    match s.threads.pc t with
    | .waking c =>
      match (g c).wake, u with
      | .none, none => some (s.move t .inside)
      | .one, none => if ∀ v, s.sleeps v = false then some (s.move t .inside) else none
      | .one, some v => if s.sleeps v then some ((s.wakeOne v).move t .inside) else none
      | .all, none => some (s.wakeAll.move t .inside)
      | _, _ => none
    | _ => none
  | .spurious t =>
    match s.threads.pc t with
    | .asleep c => some (s.move t (.woken c))
    | _ => none
  | .expire t =>
    match s.threads.pc t with
    | .asleep c => if (g c).timed then some (s.move t (.expired c)) else none
    | _ => none
  | .reenter t =>
    if s.threads.holder = none then
      match s.threads.pc t with
      | .woken c => some (s.enter t (.testing c))
      | .expired _ => some (s.enter t .inside)
      | _ => none
    else none

/-- Threads that share a value through these calls. -/
def machine (g : γ → Cmd V) (v : V) : Machine (State ι γ V) (Act ι γ) where
  init s := s = start v
  step := step g

/-- The value on its own: a call is taken where its guard holds. -/
def cell (g : γ → Cmd V) (v : V) : Machine V γ where
  init s := s = v
  step s c := if (g c).guard s then some ((g c).update s) else none

/-- A step that is taken has one of these effects. -/
theorem step_effect {g : γ → Cmd V} {s s' : State ι γ V} {a : Act ι γ}
    (h : step g s a = some s') : Effect g s a s' := by
  cases a with
  | lock t =>
    rcases Option.ite_none_right_eq_some.mp h with ⟨⟨hf, hp⟩, ⟨⟩⟩
    exact .lock hf hp
  | unlock t =>
    rcases Option.ite_none_right_eq_some.mp h with ⟨hp, ⟨⟩⟩
    exact .unlock hp
  | call t c =>
    rcases Option.ite_none_right_eq_some.mp h with ⟨hp, ⟨⟩⟩
    exact .call hp
  | test t =>
    rw [step] at h
    split at h
    · next c hp =>
      cases h
      cases hg : (g c).guard s.val with
      | true => exact .pass hp hg
      | false => exact .fail hp hg
    · cases h
  | block t =>
    rw [step] at h
    split at h
    · next c hp =>
      cases h
      exact .block hp
    · cases h
  | act t =>
    rw [step] at h
    split at h
    · next c hp =>
      cases h
      exact .act hp
    · cases h
  | wake t u =>
    rw [step] at h
    split at h
    · next c hp =>
      split at h
      · next hw =>
        cases h
        exact .wakeNone hp hw
      · next hw =>
        rcases Option.ite_none_right_eq_some.mp h with ⟨hn, ⟨⟩⟩
        exact .wakeNobody hp hw hn
      · next v hw =>
        rcases Option.ite_none_right_eq_some.mp h with ⟨hs, ⟨⟩⟩
        rcases sleeps_iff.mp hs with ⟨c', hv⟩
        have hone : s.wakeOne v = s.move v (.woken c') := by
          rw [State.wakeOne, hv]
          rfl
        rw [hone]
        exact .wakeOne hp hw hv
      · next hw =>
        cases h
        exact .wakeAll hp hw
      · cases h
    · cases h
  | spurious t =>
    rw [step] at h
    split at h
    · next c hp =>
      cases h
      exact .spurious hp
    · cases h
  | expire t =>
    rw [step] at h
    split at h
    · next c hp =>
      rcases Option.ite_none_right_eq_some.mp h with ⟨ht, ⟨⟩⟩
      exact .expire hp ht
    · cases h
  | reenter t =>
    rcases Option.ite_none_right_eq_some.mp h with ⟨hf, h⟩
    split at h
    · next c hp =>
      cases h
      exact .retest hf hp
    · next c hp =>
      cases h
      exact .timeout hf hp
    · cases h

section

variable {g : γ → Cmd V} {s s' : State ι γ V}

theorem Inv.step (hi : Inv g s) {a : Act ι γ} (h : step g s a = some s') : Inv g s' :=
  hi.effect (step_effect h)

theorem inv_of_reachable {v : V} (h : (machine g v).Reachable s) : Inv g s := by
  apply h.invariant
  · rintro _ rfl
    exact Inv.start v
  · intro s a s' hi hs
    exact hi.step hs

/-- The value is that which the calls make of the first one, taken one after another in the order
of their updates, each where its guard holds. -/
theorem refines {v : V} (h : (machine g v).Reachable s) :
    (cell g v).run v (s.log.map Prod.snd) = some s.val := by
  have hall : Inv g s ∧ (cell g v).run v (s.log.map Prod.snd) = some s.val := by
    apply h.invariant
    · rintro _ rfl
      exact ⟨Inv.start v, rfl⟩
    · intro s a s' ⟨hi, hr⟩ hs
      refine ⟨hi.step hs, ?_⟩
      cases step_effect hs with
      | @act t c hp =>
        rw [List.map_append, Machine.run_append hr]
        change ((cell g v).step s.val c).bind _ = _
        have hg : (g c).guard s.val = true := hi.at_pc hp
        rw [cell]
        dsimp only
        rw [if_pos hg]
        rfl
      | lock | unlock | call | pass | fail | block | wakeNone | wakeNobody | wakeOne | wakeAll
        | spurious | expire | retest | timeout => exact hr
  exact hall.2

/-! ### Lost wake-ups -/

variable (g) in
/-- A wake-up of one thread leaves no other asleep whose guard holds. -/
def Enough (s : State ι γ V) : Act ι γ → Prop
  | .wake t (some v) => (step g s (.wake t (some v))).isSome →
    ∀ u, u ≠ v → (s.threads.pc u).overdue g s.val = false
  | _ => True

/-- Every step keeps this, unless it wakes too few. -/
theorem Alert.step (hq : ∀ c v, (g c).wake = .none → (g c).update v = v) (hi : Inv g s)
    (ha : Alert g s) {a : Act ι γ} (hs : step g s a = some s') (he : Enough g s a) :
    Alert g s' := by
  have quiet {t : ι} {p : Pc γ} (hp : s.threads.pc t = p) (hn : p.notifying g = false) :
      (s.threads.pc t).notifying g = false := by rwa [hp]
  cases step_effect hs with
  | lock hf hp => exact ha.of_update rfl rfl rfl (quiet hp rfl)
  | unlock hp => exact ha.of_update rfl rfl rfl (quiet hp rfl)
  | call hp => exact ha.of_update rfl rfl rfl (quiet hp rfl)
  | pass hp hg => exact ha.of_update rfl rfl rfl (quiet hp rfl)
  | fail hp hg => exact ha.of_update rfl rfl rfl (quiet hp rfl)
  | block hp => exact ha.of_update rfl rfl (hi.at_pc hp) (quiet hp rfl)
  | spurious hp => exact ha.of_update rfl rfl rfl (quiet hp rfl)
  | expire hp ht => exact ha.of_update rfl rfl rfl (quiet hp rfl)
  | retest hf hp => exact ha.of_update rfl rfl rfl (quiet hp rfl)
  | timeout hf hp => exact ha.of_update rfl rfl rfl (quiet hp rfl)
  | @act t c hp =>
    by_cases hw : (g c).wake = .none
    · exact ha.of_update rfl (hq c _ hw) rfl (quiet hp rfl)
    · intro _ _
      refine ⟨t, ?_⟩
      change (Function.update s.threads.pc t (.waking c) t).notifying g = true
      rw [Function.update_self]
      exact decide_eq_true hw
  | wakeNone hp hw => exact ha.of_update rfl rfl rfl (quiet hp (by simp [Pc.notifying, hw]))
  | @wakeNobody t c hp hw hn =>
    intro u hu
    change (Function.update s.threads.pc t .inside u).overdue g s.val = true at hu
    by_cases hut : u = t
    · rw [hut, Function.update_self] at hu
      cases hu
    · rw [Function.update_of_ne hut] at hu
      have hsl := hn u
      unfold State.sleeps at hsl
      cases hpc : s.threads.pc u with
      | asleep c' =>
        rw [hpc] at hsl
        cases hsl
      | _ =>
        rw [hpc] at hu
        cases hu
  | @wakeOne t v c c' hp hw hv =>
    have hall := he (by rw [hs]; rfl)
    intro u hu
    change (Function.update (Function.update s.threads.pc v (.woken c')) t .inside u).overdue g
      s.val = true at hu
    by_cases hut : u = t
    · rw [hut, Function.update_self] at hu
      cases hu
    · rw [Function.update_of_ne hut] at hu
      by_cases huv : u = v
      · rw [huv, Function.update_self] at hu
        cases hu
      · rw [Function.update_of_ne huv, hall u huv] at hu
        cases hu
  | @wakeAll t c hp hw =>
    intro u hu
    change (Function.update (fun t ↦ (s.threads.pc t).wake) t .inside u).overdue g s.val =
      true at hu
    by_cases hut : u = t
    · rw [hut, Function.update_self] at hu
      cases hu
    · rw [Function.update_of_ne hut, Pc.overdue_wake] at hu
      cases hu

/-- A step that wakes too few loses a wake-up. -/
theorem enough_of_alert (hi : Inv g s) {a : Act ι γ}
    (hn : ∀ s', step g s a = some s' → Alert g s') : Enough g s a := by
  cases a with
  | wake t u =>
    cases u with
    | none => trivial
    | some v =>
      intro hsome u huv
      rcases Option.isSome_iff_exists.mp hsome with ⟨s', hs⟩
      have ha := hn s' hs
      cases step_effect hs with
      | @wakeOne _ _ c c' hp hw hv =>
        by_contra hu
        rw [Bool.not_eq_false] at hu
        have hut : u ≠ t := by
          rintro rfl
          rw [hp] at hu
          cases hu
        have hpc : ((s.move v (.woken c')).move t .inside).threads.pc =
            Function.update (Function.update s.threads.pc v (.woken c')) t .inside := rfl
        -- the others would have to wait for a thread that is about to wake them
        rcases ha u (by rwa [hpc, Function.update_of_ne hut, Function.update_of_ne huv])
          with ⟨w, hw⟩
        rw [hpc] at hw
        by_cases hwt : w = t
        · rw [hwt, Function.update_self] at hw
          cases hw
        · rw [Function.update_of_ne hwt] at hw
          by_cases hwv : w = v
          · rw [hwv, Function.update_self] at hw
            cases hw
          · rw [Function.update_of_ne hwv] at hw
            exact hwt (hi.alone (by rw [hp]; trivial) (Pc.holds_of_notifying hw))
  | _ => trivial

/-- If calls that wake nobody leave the value as it is, no wake-up is lost in a run exactly if
every wake-up of one thread in it was enough. -/
theorem alert_iff (hq : ∀ c v, (g c).wake = .none → (g c).update v = v) (v : V)
    (as : List (Act ι γ)) :
    (machine g v).Along (fun s a ↦ ∀ s', step g s a = some s' → Alert g s') (start v) as ↔
      (machine g v).Along (Enough g) (start v) as := by
  refine Machine.along_congr (I := fun s ↦ Inv g s ∧ Alert g s) ?_ ?_
    ⟨Inv.start v, alert_start v⟩ as
  · rintro s a ⟨hi, ha⟩
    refine ⟨enough_of_alert hi, ?_⟩
    intro he s' hs
    exact ha.step hq hi hs he
  · rintro s a s' ⟨hi, ha⟩ he hs
    exact ⟨hi.step hs, ha.step hq hi hs he⟩

end

end CtrlrFx.Base.Mesa
