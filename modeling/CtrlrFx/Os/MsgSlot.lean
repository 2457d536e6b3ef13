import CtrlrFx.Os.MsgQueue

/-!
# Message slots

`CtrlrFx/MsgSlot.h`: one value, guarded by a lock, with a semaphore that is posted when the slot
is empty and one that is posted when it is full. The semaphores are counters, as
`os/posix/CtrlrFx/Semaphore.h` has them. As long as messages are only put and got there is one
token, which goes around between the two semaphores and the threads; `signal` and `reset` move
one of the counters only.
-/

namespace CtrlrFx.Os
open Base
open MsgQueue (Mode)

/-- Members of the slot; `CtrlrFx/MsgSlot.h:31–35`. -/
structure MsgSlot (T : Type) where
  val : T
  semEmpty : Nat
  semFull : Nat
  deriving DecidableEq, Repr

namespace MsgSlot

variable {T : Type}

/-- An empty slot, on a value that is whatever `val` holds; `CtrlrFx/MsgSlot.h:45`. -/
def create (val : T) : MsgSlot T := { val, semEmpty := 1, semFull := 0 }

/-- `semEmpty_.acquire()`, which blocks at a zero count. -/
def acquireEmpty (s : MsgSlot T) : Option (MsgSlot T) :=
  if s.semEmpty = 0 then none else some { s with semEmpty := s.semEmpty - 1 }

/-- `semFull_.acquire()`, which blocks at a zero count. -/
def acquireFull (s : MsgSlot T) : Option (MsgSlot T) :=
  if s.semFull = 0 then none else some { s with semFull := s.semFull - 1 }

/-- `semEmpty_.release()`. -/
def releaseEmpty (s : MsgSlot T) : MsgSlot T := { s with semEmpty := s.semEmpty + 1 }

/-- `semFull_.release()`. -/
def releaseFull (s : MsgSlot T) : MsgSlot T := { s with semFull := s.semFull + 1 }

/-- What `do_put` does while it holds the lock; `CtrlrFx/MsgSlot.h:97–99`. -/
def store (s : MsgSlot T) (v : T) : MsgSlot T := { s with val := v }

/-! ### Threads on one slot -/

/-- Calls a thread may make; `CtrlrFx/MsgSlot.h:118–139,154–185`. -/
inductive Op (T : Type) where
  | put (m : Mode) (v : T)
  | get (m : Mode)
  deriving DecidableEq, Repr

/-- Where a thread is between two atomic steps. -/
inductive Pc (T : Type) where
  | idle
  | putWait (m : Mode) (v : T)
  | putCopy (v : T)
  | putPost (v : T)
  | getWait (m : Mode)
  | getCopy
  | getPost (v : T)
  deriving DecidableEq, Repr

/-- The slot and its threads, with the copies into the slot and out of it, oldest first, and the
messages that puts have accepted and gets have returned. -/
structure Sys (T Tid : Type) where
  slot : MsgSlot T
  pc : Tid → Pc T
  events : List (Fifo.Event T)
  accepted : List T
  returned : List T

/-- A new slot, with every thread outside it. -/
def Sys.start {Tid : Type} (val : T) : Sys T Tid :=
  { slot := .create val, pc := fun _ ↦ .idle, events := [], accepted := [], returned := [] }

/-- Atomic steps: a thread makes a call, passes its next step, or gives up waiting. -/
inductive Act (T Tid : Type) where
  | call (t : Tid) (op : Op T)
  | go (t : Tid)
  | giveUp (t : Tid)

namespace Sys

variable {Tid : Type} [DecidableEq Tid]

/-- Thread `t` moves to `p`. -/
def moveTo (s : Sys T Tid) (t : Tid) (p : Pc T) : Sys T Tid :=
  { s with pc := Function.update s.pc t p }

/-- The call `op` of an idle thread reaches its first step. -/
def call (s : Sys T Tid) (t : Tid) (op : Op T) : Option (Sys T Tid) :=
  match s.pc t, op with
  | .idle, .put m v => some (s.moveTo t (.putWait m v))
  | .idle, .get m => some (s.moveTo t (.getWait m))
  | _, _ => none

/-- The next step of thread `t` on the path of success; blocked at an empty semaphore. -/
def go (s : Sys T Tid) (t : Tid) : Option (Sys T Tid) :=
  match s.pc t with
  | .idle => none
  | .putWait _ v => s.slot.acquireEmpty.map fun slot ↦ { s with slot }.moveTo t (.putCopy v)
  | .putCopy v =>
    some
      ({ s with slot := s.slot.store v, events := s.events ++ [Fifo.Event.enq v] }.moveTo t
        (.putPost v))
  | .putPost v =>
    some ({ s with slot := s.slot.releaseFull, accepted := s.accepted ++ [v] }.moveTo t .idle)
  | .getWait _ => s.slot.acquireFull.map fun slot ↦ { s with slot }.moveTo t .getCopy
  | .getCopy =>
    some
      ({ s with events := s.events ++ [Fifo.Event.deq s.slot.val] }.moveTo t
        (.getPost s.slot.val))
  | .getPost v =>
    some ({ s with slot := s.slot.releaseEmpty, returned := s.returned ++ [v] }.moveTo t .idle)

/-- A timed wait runs out at any moment; `tryacquire` fails at a zero count. -/
def giveUp (s : Sys T Tid) (t : Tid) : Option (Sys T Tid) :=
  match s.pc t with
  | .putWait .timed _ | .getWait .timed => some (s.moveTo t .idle)
  | .putWait .attempt _ => if s.slot.semEmpty = 0 then some (s.moveTo t .idle) else none
  | .getWait .attempt => if s.slot.semFull = 0 then some (s.moveTo t .idle) else none
  | _ => none

/-- One atomic step. -/
def step (s : Sys T Tid) : Act T Tid → Option (Sys T Tid)
  | .call t op => s.call t op
  | .go t => s.go t
  | .giveUp t => s.giveUp t

end Sys

/-- Slots as they are constructed, before any call. -/
def machine (T Tid : Type) [DecidableEq Tid] : Machine (Sys T Tid) (Act T Tid) where
  init s := ∃ val, s = .start val
  step := Sys.step

/-! ### The token -/

/-- The thread is between the acquire and the release of its call. -/
def inFlight : Pc T → Prop
  | .putCopy _ | .putPost _ | .getCopy | .getPost _ => True
  | _ => False

/-- Where the token is. -/
inductive Place (Tid : Type) where
  | empty
  | full
  | thread (t : Tid)

/-- Message in the slot, which is there from its copy in to its copy out. -/
def held (val : T) : Pc T → List T
  | .putPost _ | .getCopy => [val]
  | _ => []

/-- Message that was copied in by a put that has not ended. -/
def unposted : Pc T → List T
  | .putPost v => [v]
  | _ => []

/-- Message that was copied out by a get that has not ended. -/
def unreturned : Pc T → List T
  | .getPost v => [v]
  | _ => []

theorem held_eq (val : T) (x : Pc T) : held val x = [] ∨ held val x = [val] := by
  unfold held
  split
  · exact .inr rfl
  · exact .inr rfl
  · exact .inl rfl

theorem unposted_eq_nil {x : Pc T} (h : ∀ v, x ≠ .putPost v) : unposted x = [] := by
  unfold unposted
  split
  · next v => exact absurd rfl (h v)
  · rfl

theorem unreturned_eq_nil {x : Pc T} (h : ∀ v, x ≠ .getPost v) : unreturned x = [] := by
  unfold unreturned
  split
  · next v => exact absurd rfl (h v)
  · rfl

namespace Place

variable {Tid : Type}

/-- Message in the slot. -/
def contents (s : Sys T Tid) : Place Tid → List T
  | empty => []
  | full => [s.slot.val]
  | thread t => held s.slot.val (s.pc t)

/-- Messages copied in but not yet accepted. -/
def accepting (s : Sys T Tid) : Place Tid → List T
  | thread t => unposted (s.pc t)
  | _ => []

/-- Messages copied out but not yet returned. -/
def returning (s : Sys T Tid) : Place Tid → List T
  | thread t => unreturned (s.pc t)
  | _ => []

/-- Count of the semaphore of the empty slot. -/
def empties : Place Tid → Nat
  | empty => 1
  | _ => 0

/-- Count of the semaphore of the full slot. -/
def fulls : Place Tid → Nat
  | full => 1
  | _ => 0

/-- No other thread than `t` has the token. -/
def FreeFor (t : Tid) (p : Place Tid) : Prop := ∀ u, p = .thread u → u = t

theorem freeFor_empty (t : Tid) : empty.FreeFor t := by
  intro u hu
  cases hu

theorem freeFor_full (t : Tid) : full.FreeFor t := by
  intro u hu
  cases hu

theorem freeFor_thread (t : Tid) : (thread t).FreeFor t := by
  intro u hu
  cases hu
  rfl

end Place

/-- The one token is at place `p`: a thread in flight carries it, and the copies are the history
of a queue of one message. -/
structure Inv {Tid : Type} (s : Sys T Tid) (p : Place Tid) : Prop where
  empties : s.slot.semEmpty = p.empties
  fulls : s.slot.semFull = p.fulls
  carried : ∀ t, inFlight (s.pc t) ↔ p = .thread t
  run : Fifo.Run 1 [] s.events (p.contents s)
  accepted : Fifo.inserted s.events = s.accepted ++ p.accepting s
  returned : Fifo.removed s.events = s.returned ++ p.returning s
  stored : ∀ t v, s.pc t = .putPost v → s.slot.val = v

section Steps

variable {Tid : Type} {s : Sys T Tid} {p : Place Tid} {t : Tid}

theorem inv_start (val : T) : Inv (Sys.start val : Sys T Tid) .empty := by
  constructor
  · rfl
  · rfl
  · intro t
    constructor
    · intro h
      cases h
    · intro h
      cases h
  · exact .nil
  · rfl
  · rfl
  · intro t v h
    cases h

/-- Only one thread is in flight. -/
theorem Inv.exclusive (h : Inv s p) {u : Tid} (ht : inFlight (s.pc t)) (hu : inFlight (s.pc u)) :
    t = u := by
  have hp := (h.carried t).mp ht
  rw [(h.carried u).mp hu] at hp
  cases hp
  rfl

/-- A thread in flight has the token. -/
theorem Inv.place (h : Inv s p) {x : Pc T} (hx : s.pc t = x) (hf : inFlight x) : p = .thread t := by
  apply (h.carried t).mp
  rwa [hx]

/-- The copies as a thread with the token finds them. -/
theorem Inv.logs (h : Inv s p) {x : Pc T} (hx : s.pc t = x) (hf : inFlight x) :
    p = .thread t ∧ Fifo.Run 1 [] s.events (held s.slot.val x) ∧
      Fifo.inserted s.events = s.accepted ++ unposted x ∧
      Fifo.removed s.events = s.returned ++ unreturned x := by
  obtain rfl := h.place hx hf
  subst hx
  exact ⟨rfl, h.run, h.accepted, h.returned⟩

/-- A semaphore that is not at zero has the token. -/
theorem Inv.empty_of_pos (h : Inv s p) (hs : s.slot.semEmpty ≠ 0) : p = .empty := by
  have hc := h.empties
  cases p with
  | empty => rfl
  | full => exact absurd hc hs
  | thread t => exact absurd hc hs

theorem Inv.full_of_pos (h : Inv s p) (hs : s.slot.semFull ≠ 0) : p = .full := by
  have hc := h.fulls
  cases p with
  | empty => exact absurd hc hs
  | full => rfl
  | thread t => exact absurd hc hs

variable [DecidableEq Tid]

/-- After a move of thread `t` a thread is in flight just when it is `t` and its new place is
one, or it is another and was. -/
theorem Sys.inFlight_moveTo (s : Sys T Tid) (t u : Tid) (x : Pc T) :
    inFlight ((s.moveTo t x).pc u) ↔ if u = t then inFlight x else inFlight (s.pc u) := by
  change inFlight (Function.update s.pc t x u) ↔ _
  by_cases hu : u = t
  · rw [if_pos hu, hu, Function.update_self]
  · rw [if_neg hu, Function.update_of_ne hu]

/-- A thread that has no token moves to where it needs none. -/
theorem Inv.moveTo (h : Inv s p) {x : Pc T} (ht : ¬inFlight (s.pc t)) (hx : ¬inFlight x) :
    Inv (s.moveTo t x) p := by
  have hpc {u : Tid} (hu : p = .thread u) : (s.moveTo t x).pc u = s.pc u := by
    have hne : u ≠ t := by
      rintro rfl
      exact ht ((h.carried u).mpr hu)
    exact Function.update_of_ne hne _ _
  constructor
  · exact h.empties
  · exact h.fulls
  · intro u
    rw [s.inFlight_moveTo]
    by_cases hu : u = t
    · rw [if_pos hu, hu, ← h.carried t]
      exact iff_of_false hx ht
    · rw [if_neg hu]
      exact h.carried u
  · cases p with
    | empty => exact h.run
    | full => exact h.run
    | thread u =>
      change Fifo.Run 1 [] s.events (held s.slot.val ((s.moveTo t x).pc u))
      rw [hpc rfl]
      exact h.run
  · cases p with
    | empty => exact h.accepted
    | full => exact h.accepted
    | thread u =>
      change Fifo.inserted s.events = s.accepted ++ unposted ((s.moveTo t x).pc u)
      rw [hpc rfl]
      exact h.accepted
  · cases p with
    | empty => exact h.returned
    | full => exact h.returned
    | thread u =>
      change Fifo.removed s.events = s.returned ++ unreturned ((s.moveTo t x).pc u)
      rw [hpc rfl]
      exact h.returned
  · intro u v hu
    have hf : inFlight ((s.moveTo t x).pc u) := by
      rw [hu]
      exact trivial
    rw [s.inFlight_moveTo] at hf
    by_cases hut : u = t
    · rw [if_pos hut] at hf
      exact absurd hf hx
    · apply h.stored u v
      rw [← hu]
      exact (Function.update_of_ne hut _ _).symm

/-- Thread `t` takes the token, passes a step with it, or hands it on. Nobody else had it. -/
theorem Inv.carry (h : Inv s p) {x : Pc T} {p' : Place Tid} {slot : MsgSlot T}
    {events : List (Fifo.Event T)} {accepted returned : List T}
    (hp : p.FreeFor t) (hp' : p'.FreeFor t) (hx : inFlight x ↔ p' = .thread t)
    (hempty : slot.semEmpty = p'.empties) (hfull : slot.semFull = p'.fulls)
    (hstored : ∀ v, x = .putPost v → slot.val = v)
    (hlogs : ∀ s' : Sys T Tid, s'.slot = slot → s'.pc t = x →
      Fifo.Run 1 [] events (p'.contents s') ∧
        Fifo.inserted events = accepted ++ p'.accepting s' ∧
        Fifo.removed events = returned ++ p'.returning s') :
    Inv ({ slot, pc := s.pc, events, accepted, returned : Sys T Tid }.moveTo t x) p' := by
  obtain ⟨hrun, hacc, hret⟩ := hlogs
    ({ slot, pc := s.pc, events, accepted, returned : Sys T Tid }.moveTo t x) rfl
    (Function.update_self ..)
  have hothers {u : Tid} (hu : u ≠ t) : ¬inFlight (s.pc u) := by
    intro hf
    exact hu (hp u ((h.carried u).mp hf))
  constructor
  · exact hempty
  · exact hfull
  · intro u
    rw [Sys.inFlight_moveTo]
    by_cases hu : u = t
    · rw [if_pos hu, hu]
      exact hx
    · rw [if_neg hu]
      apply iff_of_false (hothers hu)
      intro he
      exact hu (hp' u he)
  · exact hrun
  · exact hacc
  · exact hret
  · intro u v hu
    by_cases hut : u = t
    · apply hstored v
      rw [← hu, hut]
      exact (Function.update_self t x s.pc).symm
    · have hpc : s.pc u = .putPost v := (Function.update_of_ne hut _ _).symm.trans hu
      exact absurd (by rw [hpc]; trivial) (hothers hut)

/-- A put takes the token from the empty slot. -/
theorem Inv.acquireEmpty (h : Inv s p) {slot : MsgSlot T} (hs : s.slot.acquireEmpty = some slot)
    (v : T) : Inv ({ s with slot }.moveTo t (.putCopy v)) (.thread t) := by
  unfold MsgSlot.acquireEmpty at hs
  split at hs
  · cases hs
  · next h0 =>
    cases hs
    obtain rfl := h.empty_of_pos h0
    apply h.carry (Place.freeFor_empty t) (Place.freeFor_thread t)
    · exact iff_of_true trivial rfl
    · change s.slot.semEmpty - 1 = 0
      rw [h.empties]
      rfl
    · exact h.fulls
    · intro w hw
      cases hw
    · intro s' _ hx
      simp only [Place.contents, Place.accepting, Place.returning, hx]
      exact ⟨h.run, h.accepted, h.returned⟩

/-- Its message is copied into a slot that holds none. -/
theorem Inv.store (h : Inv s p) {v : T} (hpc : s.pc t = .putCopy v) :
    Inv ({ s with slot := s.slot.store v, events := s.events ++ [Fifo.Event.enq v] }.moveTo t
      (.putPost v)) (.thread t) := by
  obtain ⟨rfl, hrun, hacc, hret⟩ := h.logs hpc trivial
  apply h.carry (Place.freeFor_thread t) (Place.freeFor_thread t)
  · exact iff_of_true trivial rfl
  · exact h.empties
  · exact h.fulls
  · intro w hw
    cases hw
    rfl
  · intro s' hs hx
    simp only [Place.contents, Place.accepting, Place.returning, hx, hs]
    refine ⟨hrun.snoc (.enq v Nat.one_pos), ?_, ?_⟩
    · rw [Fifo.inserted_enq, hacc]
      exact congrArg (· ++ [v]) (List.append_nil _)
    · rw [Fifo.removed_enq, hret]
      rfl

/-- Then the full slot has the token. -/
theorem Inv.releaseFull (h : Inv s p) {v : T} (hpc : s.pc t = .putPost v) :
    Inv ({ s with slot := s.slot.releaseFull, accepted := s.accepted ++ [v] }.moveTo t .idle)
      .full := by
  obtain ⟨rfl, hrun, hacc, hret⟩ := h.logs hpc trivial
  apply h.carry (Place.freeFor_thread t) (Place.freeFor_full t)
  · exact iff_of_false id nofun
  · exact h.empties
  · change s.slot.semFull + 1 = 1
    rw [h.fulls]
    rfl
  · intro w hw
    cases hw
  · intro s' hs hx
    simp only [Place.contents, Place.accepting, Place.returning, hs]
    refine ⟨hrun, ?_, hret⟩
    rw [hacc, List.append_nil]
    rfl

/-- A get takes the token from the full slot. -/
theorem Inv.acquireFull (h : Inv s p) {slot : MsgSlot T} (hs : s.slot.acquireFull = some slot) :
    Inv ({ s with slot }.moveTo t .getCopy) (.thread t) := by
  unfold MsgSlot.acquireFull at hs
  split at hs
  · cases hs
  · next h0 =>
    cases hs
    obtain rfl := h.full_of_pos h0
    apply h.carry (Place.freeFor_full t) (Place.freeFor_thread t)
    · exact iff_of_true trivial rfl
    · exact h.empties
    · change s.slot.semFull - 1 = 0
      rw [h.fulls]
      rfl
    · intro w hw
      cases hw
    · intro s' hs hx
      simp only [Place.contents, Place.accepting, Place.returning, hx, hs]
      exact ⟨h.run, h.accepted, h.returned⟩

/-- The message is copied out of the slot, which then holds none. -/
theorem Inv.fetch (h : Inv s p) (hpc : s.pc t = .getCopy) :
    Inv ({ s with events := s.events ++ [Fifo.Event.deq s.slot.val] }.moveTo t
      (.getPost s.slot.val)) (.thread t) := by
  obtain ⟨rfl, hrun, hacc, hret⟩ := h.logs hpc trivial
  apply h.carry (Place.freeFor_thread t) (Place.freeFor_thread t)
  · exact iff_of_true trivial rfl
  · exact h.empties
  · exact h.fulls
  · intro w hw
    cases hw
  · intro s' hs hx
    simp only [Place.contents, Place.accepting, Place.returning, hx]
    refine ⟨hrun.snoc (.deq _), ?_, ?_⟩
    · rw [Fifo.inserted_deq, hacc]
      rfl
    · rw [Fifo.removed_deq, hret]
      exact congrArg (· ++ [s.slot.val]) (List.append_nil _)

/-- Then the empty slot has the token. -/
theorem Inv.releaseEmpty (h : Inv s p) {v : T} (hpc : s.pc t = .getPost v) :
    Inv ({ s with slot := s.slot.releaseEmpty, returned := s.returned ++ [v] }.moveTo t .idle)
      .empty := by
  obtain ⟨rfl, hrun, hacc, hret⟩ := h.logs hpc trivial
  apply h.carry (Place.freeFor_thread t) (Place.freeFor_empty t)
  · exact iff_of_false id nofun
  · change s.slot.semEmpty + 1 = 1
    rw [h.empties]
    rfl
  · exact h.fulls
  · intro w hw
    cases hw
  · intro s' hs hx
    simp only [Place.contents, Place.accepting, Place.returning]
    refine ⟨hrun, hacc, ?_⟩
    rw [hret, List.append_nil]
    rfl

theorem Inv.go {s' : Sys T Tid} (h : Inv s p) (hg : s.go t = some s') : ∃ p', Inv s' p' := by
  unfold Sys.go at hg
  cases hpc : s.pc t with
  | idle =>
    rw [hpc] at hg
    cases hg
  | putWait m v =>
    simp only [hpc] at hg
    rcases Option.map_eq_some_iff.mp hg with ⟨slot, hs, rfl⟩
    exact ⟨_, h.acquireEmpty hs v⟩
  | putCopy v =>
    simp only [hpc] at hg
    cases hg
    exact ⟨_, h.store hpc⟩
  | putPost v =>
    simp only [hpc] at hg
    cases hg
    exact ⟨_, h.releaseFull hpc⟩
  | getWait m =>
    simp only [hpc] at hg
    rcases Option.map_eq_some_iff.mp hg with ⟨slot, hs, rfl⟩
    exact ⟨_, h.acquireFull hs⟩
  | getCopy =>
    simp only [hpc] at hg
    cases hg
    exact ⟨_, h.fetch hpc⟩
  | getPost v =>
    simp only [hpc] at hg
    cases hg
    exact ⟨_, h.releaseEmpty hpc⟩

/-- A call moves its thread and nothing else. -/
theorem Sys.call_eq {s' : Sys T Tid} {op : Op T} (h : s.call t op = some s') :
    ∃ x, s' = s.moveTo t x ∧ ¬inFlight (s.pc t) ∧ ¬inFlight x := by
  unfold Sys.call at h
  split at h
  · next hp => exact ⟨_, (Option.some.inj h).symm, by rw [hp]; exact id, id⟩
  · next hp => exact ⟨_, (Option.some.inj h).symm, by rw [hp]; exact id, id⟩
  · cases h

/-- Giving up moves the thread out and nothing else. -/
theorem Sys.giveUp_eq {s' : Sys T Tid} (h : s.giveUp t = some s') :
    s' = s.moveTo t .idle ∧ ¬inFlight (s.pc t) := by
  unfold Sys.giveUp at h
  split at h
  · next hp => exact ⟨(Option.some.inj h).symm, by rw [hp]; exact id⟩
  · next hp => exact ⟨(Option.some.inj h).symm, by rw [hp]; exact id⟩
  · next hp =>
    split at h
    · exact ⟨(Option.some.inj h).symm, by rw [hp]; exact id⟩
    · cases h
  · next hp =>
    split at h
    · exact ⟨(Option.some.inj h).symm, by rw [hp]; exact id⟩
    · cases h
  · cases h

theorem Inv.step {s' : Sys T Tid} {a : Act T Tid} (h : Inv s p) (hs : s.step a = some s') :
    ∃ p', Inv s' p' := by
  cases a with
  | call t op =>
    rcases Sys.call_eq hs with ⟨x, rfl, ht, hx⟩
    exact ⟨p, h.moveTo ht hx⟩
  | go t => exact h.go hs
  | giveUp t =>
    rcases Sys.giveUp_eq hs with ⟨rfl, ht⟩
    exact ⟨p, h.moveTo ht id⟩

theorem inv_of_reachable (h : (machine T Tid).Reachable s) : ∃ p, Inv s p := by
  apply h.invariant (I := fun s ↦ ∃ p, Inv s p)
  · rintro _ ⟨val, rfl⟩
    exact ⟨_, inv_start val⟩
  · rintro s a s' ⟨p, hi⟩ hs
    exact hi.step hs

omit [DecidableEq Tid] in
/-- What was copied in is what was copied out, and the message in the slot. -/
theorem Inv.conserved (h : Inv s p) :
    Fifo.inserted s.events = Fifo.removed s.events ++ p.contents s := by
  have := h.run.conserves
  rwa [List.nil_append] at this

/-- What the slot promises its threads in a state. -/
structure Delivers (s : Sys T Tid) : Prop where
  /-- There is never more than one token. -/
  tokens : s.slot.semEmpty + s.slot.semFull ≤ 1
  /-- One thread at a time is between its acquire and its release. -/
  exclusive : ∀ t u, inFlight (s.pc t) → inFlight (s.pc u) → t = u
  /-- Messages are copied out in the order they were copied in, and the one that is not yet is in
  the slot. -/
  ordered : Fifo.inserted s.events = Fifo.removed s.events ∨
    Fifo.inserted s.events = Fifo.removed s.events ++ [s.slot.val]
  /-- What was copied in was accepted, but for the message of a put about to end. -/
  accepts : ((∀ t v, s.pc t ≠ .putPost v) ∧ Fifo.inserted s.events = s.accepted) ∨
    ∃ t v, s.pc t = .putPost v ∧ Fifo.inserted s.events = s.accepted ++ [v]
  /-- What was copied out was returned, but for the message of a get about to end. -/
  returns : ((∀ t v, s.pc t ≠ .getPost v) ∧ Fifo.removed s.events = s.returned) ∨
    ∃ t v, s.pc t = .getPost v ∧ Fifo.removed s.events = s.returned ++ [v]
  /-- A put stores when every message before its own has been read. -/
  stores : ∀ t v, s.pc t = .putCopy v → Fifo.inserted s.events = Fifo.removed s.events ∧
    ∃ s', s.go t = some s' ∧ s'.slot.val = v ∧ Fifo.inserted s'.events =
      Fifo.removed s.events ++ [v]
  /-- A get takes the one message that has not been read. -/
  takes : ∀ t, s.pc t = .getCopy → Fifo.inserted s.events = Fifo.removed s.events ++ [s.slot.val] ∧
    ∃ s', s.go t = some s' ∧ s'.pc t = .getPost s.slot.val
  /-- A timed or immediate operation that fails leaves the slot as it was. -/
  gives_up : ∀ t s', s.giveUp t = some s' → s'.slot = s.slot ∧ s'.events = s.events

omit [DecidableEq Tid] in
/-- Messages are copied out in the order they were copied in. -/
theorem Inv.ordered (h : Inv s p) : Fifo.inserted s.events = Fifo.removed s.events ∨
    Fifo.inserted s.events = Fifo.removed s.events ++ [s.slot.val] := by
  have hcons := h.conserved
  have hheld : p.contents s = [] ∨ p.contents s = [s.slot.val] := by
    cases p with
    | empty => exact .inl rfl
    | full => exact .inr rfl
    | thread t => exact held_eq _ _
  rcases hheld with he | he
  · left
    rwa [he, List.append_nil] at hcons
  · right
    rwa [he] at hcons

omit [DecidableEq Tid] in
/-- What was copied in was accepted, but for the message of a put about to end. -/
theorem Inv.accepts (h : Inv s p) :
    ((∀ t v, s.pc t ≠ .putPost v) ∧ Fifo.inserted s.events = s.accepted) ∨
      ∃ t v, s.pc t = .putPost v ∧ Fifo.inserted s.events = s.accepted ++ [v] := by
  have hacc := h.accepted
  by_cases hex : ∃ t v, s.pc t = .putPost v
  · right
    rcases hex with ⟨t, v, hpc⟩
    obtain rfl := h.place hpc trivial
    refine ⟨t, v, hpc, ?_⟩
    rwa [Place.accepting, hpc] at hacc
  · left
    refine ⟨fun t v hpc ↦ hex ⟨t, v, hpc⟩, ?_⟩
    have hnone : p.accepting s = [] := by
      cases p with
      | empty => rfl
      | full => rfl
      | thread t => exact unposted_eq_nil fun v hpc ↦ hex ⟨t, v, hpc⟩
    rwa [hnone, List.append_nil] at hacc

omit [DecidableEq Tid] in
/-- What was copied out was returned, but for the message of a get about to end. -/
theorem Inv.returns (h : Inv s p) :
    ((∀ t v, s.pc t ≠ .getPost v) ∧ Fifo.removed s.events = s.returned) ∨
      ∃ t v, s.pc t = .getPost v ∧ Fifo.removed s.events = s.returned ++ [v] := by
  have hret := h.returned
  by_cases hex : ∃ t v, s.pc t = .getPost v
  · right
    rcases hex with ⟨t, v, hpc⟩
    obtain rfl := h.place hpc trivial
    refine ⟨t, v, hpc, ?_⟩
    rwa [Place.returning, hpc] at hret
  · left
    refine ⟨fun t v hpc ↦ hex ⟨t, v, hpc⟩, ?_⟩
    have hnone : p.returning s = [] := by
      cases p with
      | empty => rfl
      | full => rfl
      | thread t => exact unreturned_eq_nil fun v hpc ↦ hex ⟨t, v, hpc⟩
    rwa [hnone, List.append_nil] at hret

/-- A put that is about to store finds every message read. -/
theorem Inv.stores (h : Inv s p) {v : T} (hpc : s.pc t = .putCopy v) :
    Fifo.inserted s.events = Fifo.removed s.events ∧
      ∃ s', s.go t = some s' ∧ s'.slot.val = v ∧
        Fifo.inserted s'.events = Fifo.removed s.events ++ [v] := by
  have hcons := h.conserved
  obtain rfl := h.place hpc trivial
  rw [Place.contents, hpc, held, List.append_nil] at hcons
  · refine ⟨hcons, _, by rw [Sys.go, hpc], rfl, ?_⟩
    change Fifo.inserted (s.events ++ [.enq v]) = _
    rw [Fifo.inserted_enq, hcons]
  · nofun
  · nofun

/-- A get that is about to take finds the one message that is not read. -/
theorem Inv.takes (h : Inv s p) (hpc : s.pc t = .getCopy) :
    Fifo.inserted s.events = Fifo.removed s.events ++ [s.slot.val] ∧
      ∃ s', s.go t = some s' ∧ s'.pc t = .getPost s.slot.val := by
  have hcons := h.conserved
  obtain rfl := h.place hpc trivial
  rw [Place.contents, hpc, held] at hcons
  exact ⟨hcons, _, by rw [Sys.go, hpc], Function.update_self ..⟩

end Steps

end MsgSlot
end CtrlrFx.Os
