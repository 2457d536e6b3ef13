import Mathlib.Algebra.BigOperators.Group.Finset.Basic
import Mathlib.Algebra.Order.BigOperators.Group.Finset
import Mathlib.Data.Fintype.Basic

/-!
# Machines and thread accounting

A machine takes one labelled step at a time and may refuse a label. Reachability and the
invariant rule are stated once here. Systems of threads keep one program counter a thread;
`total` adds a weight over all of them and is changed by one thread only through its own
term. `Mealy.run` feeds inputs to a machine that answers each of them.
-/

namespace CtrlrFx.Base

universe u v w

/-- Initial states and a partial labelled step. -/
structure Machine (σ : Type u) (α : Type v) where
  init : σ → Prop
  step : σ → α → Option σ

namespace Machine

variable {σ : Type u} {α : Type v} (m : Machine σ α)

/-- States reached from an initial one by finitely many accepted labels. -/
inductive Reachable : σ → Prop where
  | init {s : σ} : m.init s → Reachable s
  | step {s s' : σ} {a : α} : Reachable s → m.step s a = some s' → Reachable s'

variable {m}

/-- What holds initially and is kept by every step holds in every reachable state. -/
theorem Reachable.invariant {I : σ → Prop} (h0 : ∀ s, m.init s → I s)
    (hs : ∀ s a s', I s → m.step s a = some s' → I s') {s : σ} (h : m.Reachable s) : I s := by
  induction h with
  | init hi => exact h0 _ hi
  | step _ ha ih => exact hs _ _ _ ih ha

/-- Runs a list of labels, refusing when one of them is refused. -/
def run (m : Machine σ α) (s : σ) : List α → Option σ
  | [] => some s
  | a :: as => (m.step s a).bind fun s' ↦ m.run s' as

theorem run_cons {s s' : σ} {a : α} {as : List α} (h : m.step s a = some s') :
    m.run s (a :: as) = m.run s' as := by
  rw [run, h, Option.bind_some]

theorem run_append {s s' : σ} {as : List α} (h : m.run s as = some s') (bs : List α) :
    m.run s (as ++ bs) = m.run s' bs := by
  induction as generalizing s with
  | nil =>
    cases h
    rfl
  | cons a as ih =>
    obtain ⟨t, ht, h'⟩ := Option.bind_eq_some_iff.mp h
    rw [List.cons_append, run_cons ht, ih h']

/-- A run from a reachable state ends in a reachable state. -/
theorem Reachable.run {s s' : σ} {as : List α} (h : m.Reachable s)
    (hr : m.run s as = some s') : m.Reachable s' := by
  induction as generalizing s with
  | nil =>
    cases hr
    exact h
  | cons a as ih =>
    obtain ⟨t, ht, hr'⟩ := Option.bind_eq_some_iff.mp hr
    exact ih (h.step ht) hr'

end Machine

namespace Machine

/-! ### Runs under a condition, and histories -/

variable {σ : Type u} {α : Type v} (m : Machine σ α)

/-- The machine that refuses a label where it does not meet a condition. -/
def restrict (C : σ → α → Prop) [∀ s a, Decidable (C s a)] : Machine σ α where
  init := m.init
  step s a := if C s a then m.step s a else none

variable {m}

theorem restrict_step {C : σ → α → Prop} [∀ s a, Decidable (C s a)] {s s' : σ} {a : α} :
    (m.restrict C).step s a = some s' ↔ C s a ∧ m.step s a = some s' :=
  Option.ite_none_right_eq_some

/-- A condition holds at each step of a run. -/
def Along (m : Machine σ α) (P : σ → α → Prop) (s : σ) : List α → Prop
  | [] => True
  | a :: as => P s a ∧ ∀ s', m.step s a = some s' → m.Along P s' as

/-- A step that is taken leaves the rest of the run to the next state. -/
theorem along_cons {P : σ → α → Prop} {s s' : σ} {a : α} {as : List α}
    (h : m.step s a = some s') : m.Along P s (a :: as) ↔ P s a ∧ m.Along P s' as := by
  rw [Along, h]
  apply and_congr_right
  intro _
  constructor
  · intro hr
    exact hr s' rfl
  · rintro hr _ ⟨⟩
    exact hr

/-- Along a list of labels a condition that can be decided can be decided. -/
instance decidableAlong (P : σ → α → Prop) [∀ s a, Decidable (P s a)] :
    (s : σ) → (as : List α) → Decidable (m.Along P s as)
  | _, [] => .isTrue trivial
  | s, a :: as =>
    match h : m.step s a with
    | none => decidable_of_iff (P s a) ⟨fun hp ↦ ⟨hp, by simp [h]⟩, And.left⟩
    | some s' =>
      have := decidableAlong P s' as
      decidable_of_iff (P s a ∧ m.Along P s' as) (along_cons h).symm

/-- A condition that follows from an invariant holds along every run. -/
theorem along_of_invariant {I : σ → Prop} {P : σ → α → Prop} (hp : ∀ s a, I s → P s a)
    (hs : ∀ s a s', I s → m.step s a = some s' → I s') {s : σ} (h : I s) (as : List α) :
    m.Along P s as := by
  induction as generalizing s with
  | nil => trivial
  | cons a as ih =>
    constructor
    · exact hp s a h
    · intro s' hstep
      exact ih (hs s a s' h hstep)

/-- What each step under a condition keeps holds at the end of a run under it. -/
theorem run_along {I : σ → Prop} {P : σ → α → Prop}
    (hs : ∀ s a s', I s → P s a → m.step s a = some s' → I s') {s s' : σ} (h : I s)
    {as : List α} (ha : m.Along P s as) (hr : m.run s as = some s') : I s' := by
  induction as generalizing s with
  | nil =>
    cases hr
    exact h
  | cons a as ih =>
    obtain ⟨t, ht, hr'⟩ := Option.bind_eq_some_iff.mp hr
    exact ih (hs s a t h ha.1 ht) (ha.2 t ht) hr'

/-- What each step keeps holds at the end of every run. -/
theorem run_invariant {I : σ → Prop} (hs : ∀ s a s', I s → m.step s a = some s' → I s')
    {s s' : σ} (h : I s) {as : List α} (hr : m.run s as = some s') : I s' :=
  run_along (P := fun _ _ ↦ True) (fun s a s' hi _ ↦ hs s a s' hi) h
    (along_of_invariant (fun _ _ _ ↦ trivial) hs h as) hr

/-- What holds along a run holds at its last step. -/
theorem along_last {P : σ → α → Prop} {s s' : σ} {as : List α} {a : α}
    (h : m.Along P s (as ++ [a])) (hr : m.run s as = some s') : P s' a := by
  induction as generalizing s with
  | nil =>
    cases hr
    exact h.1
  | cons b as ih =>
    obtain ⟨t, ht, hr'⟩ := Option.bind_eq_some_iff.mp hr
    exact ih (h.2 t ht) hr'

/-- A condition that follows from another wherever an invariant holds, which that one keeps, holds
along the same runs. -/
theorem along_imp {I : σ → Prop} {P Q : σ → α → Prop} (hpq : ∀ s a, I s → P s a → Q s a)
    (hs : ∀ s a s', I s → P s a → m.step s a = some s' → I s') {s : σ} (h : I s)
    {as : List α} (ha : m.Along P s as) : m.Along Q s as := by
  induction as generalizing s with
  | nil => trivial
  | cons a as ih =>
    constructor
    · exact hpq s a h ha.1
    · intro s' hstep
      exact ih (hs s a s' h ha.1 hstep) (ha.2 s' hstep)

/-- Two conditions that say the same wherever an invariant holds, and keep it, hold along the
same runs. -/
theorem along_congr {I : σ → Prop} {P Q : σ → α → Prop} (hpq : ∀ s a, I s → (P s a ↔ Q s a))
    (hs : ∀ s a s', I s → Q s a → m.step s a = some s' → I s') {s : σ} (h : I s)
    (as : List α) : m.Along P s as ↔ m.Along Q s as := by
  induction as generalizing s with
  | nil => rfl
  | cons a as ih =>
    rw [Along, Along, hpq s a h]
    apply and_congr_right
    intro hq
    apply forall_congr'
    intro s'
    exact imp_congr_right fun ha ↦ ih (hs s a s' h hq ha)

/-- Where a step records at most one event in front of the history, what holds of each new
history holds of all that ever were. -/
theorem Reachable.forall_suffix {ε : Type w} (log : σ → List ε) {I : σ → Prop}
    {P : List ε → Prop} (h0 : ∀ s, m.init s → I s ∧ log s = []) (hn : P [])
    (hs : ∀ s a s', I s → m.step s a = some s' →
      I s' ∧ (log s' = log s ∨ ∃ e, log s' = e :: log s ∧ P (e :: log s)))
    {s : σ} (h : m.Reachable s) : I s ∧ ∀ l, l <:+ log s → P l := by
  apply h.invariant (I := fun s ↦ I s ∧ ∀ l, l <:+ log s → P l)
  · intro s hi
    refine ⟨(h0 s hi).1, ?_⟩
    intro l hl
    rw [(h0 s hi).2, List.suffix_nil] at hl
    rw [hl]
    exact hn
  · intro s a s' ih ha
    rcases hs s a s' ih.1 ha with ⟨hi', he | ⟨e, he, hp⟩⟩
    · rw [he]
      exact ⟨hi', ih.2⟩
    · refine ⟨hi', ?_⟩
      intro l hl
      rw [he, List.suffix_cons_iff] at hl
      rcases hl with rfl | hl
      · exact hp
      · exact ih.2 l hl

end Machine

/-! ### Machines that answer -/

namespace Mealy

variable {σ : Type u} {τ : Type v} {ι ο : Type w}

/-- Feeds a list of inputs to a machine that answers each, with the answers. -/
def run (f : σ → ι → ο × σ) (s : σ) : List ι → List ο × σ
  | [] => ([], s)
  | i :: is => ((f s i).1 :: (run f (f s i).2 is).1, (run f (f s i).2 is).2)

/-- Two machines related by a relation under which they answer alike, and which their steps
keep, answer every list of inputs alike. -/
theorem run_simulates {f : σ → ι → ο × σ} {g : τ → ι → ο × τ} {R : σ → τ → Prop}
    (h : ∀ s t i, R s t → (f s i).1 = (g t i).1 ∧ R (f s i).2 (g t i).2) {s : σ} {t : τ}
    (hR : R s t) (is : List ι) :
    (run f s is).1 = (run g t is).1 ∧ R (run f s is).2 (run g t is).2 := by
  induction is generalizing s t with
  | nil => exact ⟨rfl, hR⟩
  | cons i is ih =>
    obtain ⟨ho, hs⟩ := h s t i hR
    obtain ⟨hos, hss⟩ := ih hs
    exact ⟨by rw [run, run, ho, hos], hss⟩

end Mealy

section Threads

variable {ι : Type u} {α : Type v} [Fintype ι]

/-- Sum of a weight over the states of all threads. -/
def total (w : α → Nat) (f : ι → α) : Nat := ∑ i, w (f i)

theorem total_eq_zero_iff (w : α → Nat) (f : ι → α) : total w f = 0 ↔ ∀ i, w (f i) = 0 := by
  simp [total]

/-- One thread weighs no more than all of them. -/
theorem le_total (w : α → Nat) (f : ι → α) (i : ι) : w (f i) ≤ total w f :=
  Finset.single_le_sum (f := fun i ↦ w (f i)) (fun _ _ ↦ Nat.zero_le _) (Finset.mem_univ i)

/-- If every thread weighs nothing, so do all of them together. -/
theorem total_const_zero (w : α → Nat) (x : α) (h : w x = 0) :
    total w (fun _ : ι ↦ x) = 0 := by
  simp [total, h]

variable [DecidableEq ι]

/-- A step of one thread exchanges that thread's term of the sum for its new one. -/
theorem total_update (w : α → Nat) (f : ι → α) (i : ι) (x : α) :
    total w (Function.update f i x) + w (f i) = total w f + w x := by
  have hu : ∀ g : ι → α, total w g = w (g i) + ∑ j ∈ Finset.univ.erase i, w (g j) :=
    fun g ↦ (Finset.add_sum_erase _ _ (Finset.mem_univ i)).symm
  have hr : ∑ j ∈ Finset.univ.erase i, w (Function.update f i x j) =
      ∑ j ∈ Finset.univ.erase i, w (f j) := by
    apply Finset.sum_congr rfl
    intro j hj
    rw [Function.update_of_ne (Finset.ne_of_mem_erase hj)]
  rw [hu (Function.update f i x), hu f, hr, Function.update_self]
  omega

/-- Two different threads weigh no more than all of them. -/
theorem add_le_total (w : α → Nat) (f : ι → α) {i j : ι} (h : i ≠ j) :
    w (f i) + w (f j) ≤ total w f := by
  have hi := Finset.add_sum_erase Finset.univ (fun k ↦ w (f k)) (Finset.mem_univ i)
  have hj := Finset.single_le_sum (f := fun k ↦ w (f k)) (fun _ _ ↦ Nat.zero_le _)
    (Finset.mem_erase.mpr ⟨h.symm, Finset.mem_univ j⟩)
  simp only [total]
  omega

end Threads
end CtrlrFx.Base
