import Mathlib.Data.List.Basic

/-!
# Names in nested scopes

A text declares names in a scope of its own, inside scopes that have names already, and uses names
of these. A name stands for what the innermost scope says that has it, so that a declaration hides
what is further out. `Resolves` checks a text from its start; `resolves_iff` says what that comes
to.
-/

namespace CtrlrFx.Base.Scope

universe u

variable {α : Type u}

/-- What a text does with a name: it declares it, or uses it for what the outer scope of the given
number says, or for what none of them does. -/
inductive Mention (α : Type u) where
  | declare (x : α)
  | use (x : α) (depth : Option Nat)
  deriving DecidableEq

namespace Mention

def name : Mention α → α
  | declare x => x
  | use x _ => x

/-- The name that a mention declares, if it does. -/
def declared : Mention α → Option α
  | declare x => some x
  | use _ _ => none

/-- The mention is a declaration, and the other one comes behind it and means it. -/
def Hides (m m' : Mention α) : Prop := m.declared = some m'.name

instance [DecidableEq α] (m m' : Mention α) : Decidable (m.Hides m') :=
  inferInstanceAs (Decidable (m.declared = some m'.name))

end Mention

variable [DecidableEq α]

/-- The number of the innermost scope that has a name. -/
def lookup : List (List α) → α → Option Nat
  | [], _ => none
  | s :: ss, x => if x ∈ s then some 0 else (lookup ss x).map (· + 1)

theorem lookup_eq_none {ss : List (List α)} {x : α} : lookup ss x = none ↔ ∀ s ∈ ss, x ∉ s := by
  induction ss with
  | nil => simp [lookup]
  | cons s ss ih =>
    rw [lookup, List.forall_mem_cons, ← ih]
    split
    · next h => simp [h]
    · next h => simp [h]

theorem lookup_cons_zero {s : List α} {ss : List (List α)} {x : α} :
    lookup (s :: ss) x = some 0 ↔ x ∈ s := by
  rw [lookup]
  split
  · next h => simp [h]
  · next h => simp [h]

theorem lookup_cons_succ {s : List α} {ss : List (List α)} {x : α} {n : Nat} :
    lookup (s :: ss) x = some (n + 1) ↔ x ∉ s ∧ lookup ss x = some n := by
  rw [lookup]
  split
  · next h => simp [h]
  · next h => simp [h]

/-- A name that is used is used for what it stands for outside. -/
def Mention.Means (outer : List (List α)) : Mention α → Prop
  | declare _ => True
  | use x depth => lookup outer x = depth

instance (outer : List (List α)) : (m : Mention α) → Decidable (m.Means outer)
  | .declare _ => .isTrue trivial
  | .use x depth => inferInstanceAs (Decidable (lookup outer x = depth))

/-- A text behind the declarations of `own`: no name is declared twice, and each name that is used
is used for what it stands for. -/
def Resolves (outer : List (List α)) (own : List α) : List (Mention α) → Prop
  | [] => True
  | .declare x :: ms => x ∉ own ∧ Resolves outer (x :: own) ms
  | .use x depth :: ms => x ∉ own ∧ lookup outer x = depth ∧ Resolves outer own ms

/-- A text resolves exactly if its names are not declared before, it declares none that it mentions
again, and those that it uses stand for what they are used for. -/
theorem resolves_iff {outer : List (List α)} {own : List α} {ms : List (Mention α)} :
    Resolves outer own ms ↔ (∀ m ∈ ms, m.name ∉ own) ∧
      ms.Pairwise (fun m m' ↦ ¬m.Hides m') ∧ ∀ m ∈ ms, m.Means outer := by
  induction ms generalizing own with
  | nil => simp [Resolves]
  | cons m ms ih =>
    rw [List.forall_mem_cons, List.pairwise_cons, List.forall_mem_cons]
    cases m with
    | declare x =>
      have hown : (∀ m ∈ ms, m.name ∉ x :: own) ↔
          (∀ m ∈ ms, ¬(Mention.declare x).Hides m) ∧ ∀ m ∈ ms, m.name ∉ own := by
        rw [← forall₂_and]
        apply forall₂_congr
        intro m _
        rw [List.mem_cons, not_or, Mention.Hides, Mention.declared, Option.some.injEq,
          eq_comm (a := x)]
      rw [Resolves, ih, hown]
      simp only [Mention.name, Mention.Means, true_and]
      tauto
    | use x depth =>
      have hhide : ∀ m ∈ ms, ¬(Mention.use x depth).Hides m := by
        intro m _ hm
        cases hm
      rw [Resolves, ih]
      simp only [Mention.name, Mention.Means]
      tauto

instance (outer : List (List α)) (own : List α) (ms : List (Mention α)) :
    Decidable (Resolves outer own ms) :=
  decidable_of_iff _ resolves_iff.symm

/-- A text in the middle of another one: what is in front does not hide it, and it does not hide
what is behind. -/
theorem resolves_between (outer : List (List α)) (head mid tail : List (Mention α)) :
    Resolves outer [] (head ++ mid ++ tail) ↔
      Resolves outer [] (head ++ tail) ∧ Resolves outer [] mid ∧
        (∀ m ∈ mid, m.name ∉ head.filterMap Mention.declared) ∧
          ∀ m ∈ tail, m.name ∉ mid.filterMap Mention.declared := by
  have hhides (ms ms' : List (Mention α)) : (∀ m ∈ ms, ∀ m' ∈ ms', ¬m.Hides m') ↔
      ∀ m' ∈ ms', m'.name ∉ ms.filterMap Mention.declared := by
    simp only [List.mem_filterMap, Mention.Hides, not_exists, not_and]
    exact forall₂_comm
  rw [resolves_iff, resolves_iff, resolves_iff, List.pairwise_append, List.pairwise_append,
    List.pairwise_append, hhides, hhides, hhides, List.filterMap_append]
  simp only [List.mem_append, or_imp, not_or, forall_and, List.not_mem_nil, not_false_eq_true,
    implies_true, true_and]
  tauto

end CtrlrFx.Base.Scope
