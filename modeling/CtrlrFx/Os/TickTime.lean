import Mathlib.Data.UInt

/-!
# Times that are tick counts

`CtrlrFx/os/ecos/CtrlrFx/Time.h` keeps an unsigned and `CtrlrFx/os/Win32/CtrlrFx/Time.h` a signed
64-bit count of ticks. A difference of two times is built by the constructor of `Duration` that
overload resolution finds for a tick count, in memory with contents of its own.
-/

namespace CtrlrFx.Os.TickTime

/-- The constructors of `Duration`, by what they take; `CtrlrFx/os/ecos/CtrlrFx/Time.h:170–181` and
`CtrlrFx/os/Win32/CtrlrFx/Time.h:25–33`. -/
inductive Ctor where
  | default
  | nsec
  | usec
  | msec
  | sec
  | int
  | uint32
  | secNsec
  | tick
  | timeBase
  | copy
  deriving DecidableEq, Repr

/-- How far an argument is from a parameter. -/
inductive Rank where
  | exact
  | conversion
  | user
  deriving DecidableEq, Repr

namespace Ctor

/-- A single tick count as the argument: a reference to a constant binds to it as it is, the two
narrow integers are converted from it, and the classes have converting constructors. The others do
not take one argument. -/
def rank : Ctor → Option Rank
  | tick => some .exact
  | int | uint32 => some .conversion
  | nsec | usec | msec | sec | timeBase | copy => some .user
  | default | secNsec => none

/-- The first constructor is viable and better than the second. -/
def better (c c' : Ctor) : Bool :=
  match c.rank, c'.rank with
  | some _, none => true
  | some .exact, some .conversion | some .exact, some .user => true
  | some .conversion, some .user => true
  | _, _ => false

/-- The constructor that is better than every other one, if there is one. -/
def resolve (cs : List Ctor) : Option Ctor :=
  cs.find? fun c ↦ c.rank.isSome && cs.all fun c' ↦ c' == c || c.better c'

theorem better_tick (c : Ctor) : c.better tick = false := by
  cases c <;> rfl

theorem tick_better {c : Ctor} (h : c ≠ tick) : tick.better c = true := by
  cases c with
  | tick => exact absurd rfl h
  | _ => rfl

/-- Among any constructors the one that takes a tick count is found, if it is there. -/
theorem resolve_eq_tick {cs : List Ctor} (h : tick ∈ cs) : resolve cs = some tick := by
  have hbest : ∀ c ∈ cs, (c == tick || tick.better c) = true := by
    intro c _
    by_cases hc : c = tick
    · rw [hc]
      rfl
    · rw [tick_better hc, Bool.or_true]
  cases hr : resolve cs with
  | none =>
    have hn := List.find?_eq_none.mp hr tick h
    rw [List.all_eq_true.mpr hbest] at hn
    exact absurd rfl hn
  | some c =>
    have hc := List.find?_some hr
    rw [Bool.and_eq_true, List.all_eq_true] at hc
    have ht := hc.2 tick h
    rw [better_tick, Bool.or_false, beq_iff_eq] at ht
    rw [ht]

end Ctor

/-- `CtrlrFx/os/ecos/CtrlrFx/Time.h:112, 168` and `CtrlrFx/os/Win32/CtrlrFx/Time.h:16–18`. -/
structure Duration (T : Type) where
  ticks : T
  deriving DecidableEq, Repr

/-- `CtrlrFx/os/ecos/CtrlrFx/Time.h:112, 249` and `CtrlrFx/os/Win32/CtrlrFx/Time.h:45–47`. -/
structure Time (T : Type) where
  ticks : T
  deriving DecidableEq, Repr

variable {T : Type}

/-- `Duration(ticks)` for a tick count in memory that holds `held`, where `others` is what the
constructors for something else make of their argument; none if the call is ambiguous. -/
def Duration.construct (cs : List Ctor) (others : Ctor → T → T) (held ticks : T) :
    Option (Duration T) :=
  (Ctor.resolve cs).map fun
    -- `ticks_(ticks_)`: the member, or the part of the base class, is given its own value
    | .tick => ⟨held⟩
    | c => ⟨others c ticks⟩

section Difference

variable [Sub T]

/-- `CtrlrFx/os/ecos/CtrlrFx/Time.h:310–313` and `CtrlrFx/os/Win32/CtrlrFx/Time.h:120–123`. -/
def Time.sub (cs : List Ctor) (others : Ctor → T → T) (held : T) (u t : Time T) :
    Option (Duration T) :=
  Duration.construct cs others held (u.ticks - t.ticks)

/-- What memory held is the difference, whatever the two times are. -/
theorem sub_eq {cs : List Ctor} (h : .tick ∈ cs) (others : Ctor → T → T) (held : T)
    (u t : Time T) : u.sub cs others held t = some ⟨held⟩ := by
  rw [Time.sub, Duration.construct, Ctor.resolve_eq_tick h]
  rfl

end Difference

/-- `CtrlrFx/os/ecos/CtrlrFx/Time.h:300–303` and `CtrlrFx/os/Win32/CtrlrFx/Time.h:110–113`. -/
def Time.add [Add T] (t : Time T) (d : Duration T) : Time T := ⟨t.ticks + d.ticks⟩

variable [Add T] [Sub T]

/-- The difference of two times, built where memory holds `held`, is that of their ticks and leads
from the one back to the other. -/
def Inverse (cs : List Ctor) (others : Ctor → T → T) (held : T) (u t : Time T) : Prop :=
  ∃ d, u.sub cs others held t = some d ∧ d.ticks = u.ticks - t.ticks ∧
    (t.add d).ticks = u.ticks

theorem inverse_iff {cs : List Ctor} (h : .tick ∈ cs)
    (hadd : ∀ x y : T, y + (x - y) = x) (others : Ctor → T → T) (held : T) (u t : Time T) :
    Inverse cs others held u t ↔ held = u.ticks - t.ticks := by
  rw [Inverse, sub_eq h]
  constructor
  · rintro ⟨_, ⟨⟩, hd, -⟩
    exact hd
  · intro he
    refine ⟨⟨held⟩, rfl, he, ?_⟩
    rw [Time.add, he]
    exact hadd _ _

/-- `CtrlrFx/os/ecos/CtrlrFx/Time.h:170–181`. -/
def Ecos.ctors : List Ctor :=
  [.default, .nsec, .usec, .msec, .sec, .int, .uint32, .secNsec, .tick, .timeBase, .copy]

/-- `CtrlrFx/os/Win32/CtrlrFx/Time.h:25–33`. -/
def Win32.ctors : List Ctor := [.nsec, .usec, .msec, .sec, .uint32, .int, .secNsec, .tick, .copy]

/-- On both ports a difference is right exactly if its memory happened to hold it before. -/
theorem difference_iff (others : Ctor → UInt64 → UInt64) (held : UInt64) (u t : Time UInt64)
    (others' : Ctor → Int64 → Int64) (held' : Int64) (u' t' : Time Int64) :
    (Inverse Ecos.ctors others held u t ↔ held = u.ticks - t.ticks) ∧
      (Inverse Win32.ctors others' held' u' t' ↔ held' = u'.ticks - t'.ticks) := by
  constructor
  · exact inverse_iff (by decide) (by grind) others held u t
  · exact inverse_iff (by decide) (by grind) others' held' u' t'

/-- The difference of two equal times, where memory held one tick. -/
theorem not_inverse : ¬((∀ (held : UInt64) (u t : Time UInt64),
      Inverse Ecos.ctors (fun _ x ↦ x) held u t) ∧
    ∀ (held : Int64) (u t : Time Int64), Inverse Win32.ctors (fun _ x ↦ x) held u t) := by
  rintro ⟨h, -⟩
  rcases h 1 ⟨5⟩ ⟨5⟩ with ⟨d, hd, he, -⟩
  cases hd
  exact absurd he (by decide)

end CtrlrFx.Os.TickTime
