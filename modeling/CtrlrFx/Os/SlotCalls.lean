import CtrlrFx.Os.MsgSlot

/-!
# Calls on a message slot

The calls of `CtrlrFx/MsgSlot.h` one after another. `signal` and `reset` are to replace and to
discard the message in the slot, but of the token they do not know where it is: on a full slot
the one makes a second token and the other takes the only one away.
-/

namespace CtrlrFx.Os
open Base

namespace MsgSlot

variable {T : Type}

/-- `CtrlrFx/MsgSlot.h:94–103`. -/
def doPut (s : MsgSlot T) (v : T) : MsgSlot T := (s.store v).releaseFull

/-- The value copied out, and the slot; `CtrlrFx/MsgSlot.h:105–114`. -/
def doGet (s : MsgSlot T) : T × MsgSlot T := (s.val, s.releaseEmpty)

/-- `CtrlrFx/MsgSlot.h:118–123`. -/
def put (s : MsgSlot T) (v : T) : Option (MsgSlot T) := s.acquireEmpty.map fun s ↦ s.doPut v

/-- `CtrlrFx/MsgSlot.h:133–139`. -/
def tryput (s : MsgSlot T) (v : T) : Bool × MsgSlot T :=
  match s.acquireEmpty with
  | none => (false, s)
  | some s => (true, s.doPut v)

/-- `CtrlrFx/MsgSlot.h:141–146`. -/
def signal (s : MsgSlot T) (v : T) : MsgSlot T := (s.acquireEmpty.getD s).doPut v

/-- `CtrlrFx/MsgSlot.h:148–152`. -/
def reset (s : MsgSlot T) : MsgSlot T := s.acquireFull.getD s

/-- `CtrlrFx/MsgSlot.h:154–169`. -/
def get (s : MsgSlot T) : Option (T × MsgSlot T) := s.acquireFull.map doGet

/-- What is copied to the caller, if anything; `CtrlrFx/MsgSlot.h:179–185`. -/
def tryget (s : MsgSlot T) : Option T × MsgSlot T :=
  match s.acquireFull with
  | none => (none, s)
  | some s => (some s.doGet.1, s.doGet.2)

/-! ### Histories of calls -/

/-- A call that is to be completed. -/
inductive Call (T : Type) where
  | put (v : T)
  | tryput (v : T)
  | signal (v : T)
  | reset
  | get
  | tryget
  deriving DecidableEq, Repr

/-- The slot and the message that it holds after the calls made so far. -/
structure History (T : Type) where
  slot : MsgSlot T
  held : Option T

namespace History

/-- A new slot. -/
def start (val : T) : History T := { slot := .create val, held := none }

/-- A completed call, if it does not block: a put or a signal leaves its message in the slot, a
get or a reset leaves none there, and what fails leaves the slot as it was. -/
def step (h : History T) : Call T → Option (History T)
  | .put v => (h.slot.put v).map fun slot ↦ { slot, held := some v }
  | .tryput v =>
    let r := h.slot.tryput v
    some { slot := r.2, held := if r.1 then some v else h.held }
  | .signal v => some { slot := h.slot.signal v, held := some v }
  | .reset => some { slot := h.slot.reset, held := none }
  | .get => h.slot.get.map fun r ↦ { slot := r.2, held := none }
  | .tryget =>
    let r := h.slot.tryget
    some { slot := r.2, held := if r.1.isSome then none else h.held }

/-- An immediate put succeeds when the slot holds no message, and an immediate get when it holds
one. -/
structure TryLaw (h : History T) : Prop where
  tryput : ∀ v, (h.slot.tryput v).1 = true ↔ h.held = none
  tryget : h.slot.tryget.1.isSome = true ↔ h.held.isSome = true

/-- After `signal` one get succeeds, with its message; after `reset` a get fails and a put
succeeds. -/
def AfterLaw (h : History T) : Call T → Prop
  | .signal v => h.slot.tryget.1 = some v ∧ h.slot.tryget.2.tryget.1 = none
  | .reset => h.slot.tryget.1 = none ∧ ∀ v, (h.slot.tryput v).1 = true
  | _ => True

/-- The laws hold after each of these calls. -/
def Lawful (h : History T) : List (Call T) → Prop
  | [] => h.TryLaw
  | c :: cs => h.TryLaw ∧ ∀ h', h.step c = some h' → h'.AfterLaw c ∧ h'.Lawful cs

/-- `signal` and `reset` are called only while the slot holds no message. -/
def Guarded (h : History T) : List (Call T) → Prop
  | [] => True
  | c :: cs => (((∃ v, c = .signal v) ∨ c = .reset) → h.held = none) ∧
      ∀ h', h.step c = some h' → h'.Guarded cs

/-- The semaphores agree with what the slot holds. -/
inductive Consistent : History T → Prop where
  | empty (val : T) : Consistent { slot := ⟨val, 1, 0⟩, held := none }
  | full (val : T) : Consistent { slot := ⟨val, 0, 1⟩, held := some val }

theorem Consistent.tryLaw {h : History T} (hc : h.Consistent) : h.TryLaw := by
  cases hc with
  | empty val =>
    constructor
    · intro v
      exact iff_of_true rfl rfl
    · exact iff_of_false nofun nofun
  | full val =>
    constructor
    · intro v
      exact iff_of_false nofun nofun
    · exact iff_of_true rfl rfl

/-- A call that respects the guard keeps the semaphores in agreement, and its law holds. -/
theorem Consistent.step {h h' : History T} {c : Call T} (hc : h.Consistent)
    (hg : ((∃ v, c = .signal v) ∨ c = .reset) → h.held = none) (hs : h.step c = some h') :
    h'.Consistent ∧ h'.AfterLaw c := by
  cases hc with
  | empty val =>
    cases c with
    | put v =>
      cases hs
      exact ⟨.full v, trivial⟩
    | tryput v =>
      cases hs
      exact ⟨.full v, trivial⟩
    | signal v =>
      cases hs
      exact ⟨.full v, rfl, rfl⟩
    | reset =>
      cases hs
      exact ⟨.empty val, rfl, fun _ ↦ rfl⟩
    | get => cases hs
    | tryget =>
      cases hs
      exact ⟨.empty val, trivial⟩
  | full val =>
    cases c with
    | put v => cases hs
    | tryput v =>
      cases hs
      exact ⟨.full val, trivial⟩
    | signal v => exact absurd (hg (.inl ⟨v, rfl⟩)) nofun
    | reset => exact absurd (hg (.inr rfl)) nofun
    | get =>
      cases hs
      exact ⟨.empty val, trivial⟩
    | tryget =>
      cases hs
      exact ⟨.empty val, trivial⟩

/-- On a full slot `signal` makes a second token, so that two gets succeed, and `reset` takes
the token away, so that no put does. -/
theorem Consistent.not_afterLaw {h : History T} {c : Call T} (hc : h.Consistent)
    (hcall : (∃ v, c = .signal v) ∨ c = .reset) (hheld : h.held ≠ none) :
    ∃ h', h.step c = some h' ∧ ¬h'.AfterLaw c := by
  cases hc with
  | empty val => exact absurd rfl hheld
  | full val =>
    rcases hcall with ⟨v, rfl⟩ | rfl
    · refine ⟨_, rfl, ?_⟩
      rintro ⟨-, hsecond⟩
      cases hsecond
    · refine ⟨_, rfl, ?_⟩
      rintro ⟨-, hput⟩
      cases hput val

theorem Consistent.lawful_iff {h : History T} (hc : h.Consistent) (cs : List (Call T)) :
    h.Lawful cs ↔ h.Guarded cs := by
  induction cs generalizing h with
  | nil => exact iff_of_true hc.tryLaw trivial
  | cons c cs ih =>
    constructor
    · rintro ⟨-, hl⟩
      have hg : ((∃ v, c = .signal v) ∨ c = .reset) → h.held = none := by
        intro hcall
        by_contra hheld
        rcases hc.not_afterLaw hcall hheld with ⟨h', hs, hn⟩
        exact hn (hl h' hs).1
      refine ⟨hg, fun h' hs ↦ ?_⟩
      exact (ih (hc.step hg hs).1).mp (hl h' hs).2
    · rintro ⟨hg, hl⟩
      refine ⟨hc.tryLaw, fun h' hs ↦ ?_⟩
      rcases hc.step hg hs with ⟨hc', ha⟩
      exact ⟨ha, (ih hc').mpr (hl h' hs)⟩

/-- The laws of a slot hold throughout a sequence of calls just when `signal` and `reset` are
called only while it holds no message. -/
theorem slotCalls_lawful_iff (val : T) (cs : List (Call T)) :
    (start val).Lawful cs ↔ (start val).Guarded cs :=
  Consistent.lawful_iff (.empty val) cs

/-- A signal over an unread message is got twice; a reset of an unread message leaves a slot
that no put gets into. -/
theorem slotCalls_not_lawful :
    ¬(start 0).Lawful [.put 1, .signal 2] ∧ ¬(start 0).Lawful [.put 1, .reset] := by
  constructor
  · rintro ⟨-, h⟩
    rcases h _ rfl with ⟨-, -, h⟩
    rcases h _ rfl with ⟨⟨-, hsecond⟩, -⟩
    cases hsecond
  · rintro ⟨-, h⟩
    rcases h _ rfl with ⟨-, -, h⟩
    rcases h _ rfl with ⟨⟨-, hput⟩, -⟩
    cases hput 3

end History
end MsgSlot
end CtrlrFx.Os
