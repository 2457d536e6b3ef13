import CtrlrFx.Base.Machine
import Mathlib.Algebra.Order.BigOperators.Group.List
import Mathlib.Algebra.Ring.Nat
import Mathlib.Logic.Function.Basic
import Mathlib.Tactic.Abel

/-!
# Threads that talk through queues

Threads that share a memory and pass values through bounded queues, from which a value is taken and
into which one is put at once. What the threads hold and what is in the queues is weighed together.
-/

namespace CtrlrFx.Base.Network

/-- What a thread does next: nothing any more, work on what the threads share where it can, or a
call on a channel. -/
inductive Instr {κ : Type} (α : κ → Type) (σ γ β : Type) where
  | stop
  | work (f : β → γ → Option (σ × γ))
  | put (c : κ) (v : α c) (k : σ)
  | get (c : κ) (k : α c → σ)

/-- The code of every thread at each of its places. -/
abbrev Program (ι : Type) {κ : Type} (α : κ → Type) (σ γ β : Type) :=
  ι → σ → Instr α σ γ β

/-- The places of threads, the values in the channels, and what the threads share. -/
@[ext] structure State (ι : Type) {κ : Type} (α : κ → Type) (σ γ : Type) where
  loc : ι → σ
  chan : (c : κ) → List (α c)
  mem : γ

variable {ι κ : Type} {α : κ → Type} {σ γ β : Type} [DecidableEq ι] [DecidableEq κ]

namespace State

/-- Thread `t` goes to `l`. -/
def goTo (s : State ι α σ γ) (t : ι) (l : σ) : State ι α σ γ :=
  { s with loc := Function.update s.loc t l }

/-- The values in channel `c` are `vs`. -/
def setChan (s : State ι α σ γ) (c : κ) (vs : List (α c)) : State ι α σ γ :=
  { s with chan := Function.update s.chan c vs }

omit [DecidableEq κ] in
@[simp] theorem loc_goTo (s : State ι α σ γ) (t : ι) (l : σ) :
    (s.goTo t l).loc = Function.update s.loc t l := rfl

omit [DecidableEq κ] in
@[simp] theorem chan_goTo (s : State ι α σ γ) (t : ι) (l : σ) : (s.goTo t l).chan = s.chan := rfl

omit [DecidableEq κ] in
@[simp] theorem mem_goTo (s : State ι α σ γ) (t : ι) (l : σ) : (s.goTo t l).mem = s.mem := rfl

omit [DecidableEq ι] in
@[simp] theorem loc_setChan (s : State ι α σ γ) (c : κ) (vs : List (α c)) :
    (s.setChan c vs).loc = s.loc := rfl

omit [DecidableEq ι] in
@[simp] theorem chan_setChan (s : State ι α σ γ) (c : κ) (vs : List (α c)) :
    (s.setChan c vs).chan = Function.update s.chan c vs := rfl

omit [DecidableEq ι] in
@[simp] theorem mem_setChan (s : State ι α σ γ) (c : κ) (vs : List (α c)) :
    (s.setChan c vs).mem = s.mem := rfl

omit [DecidableEq κ] in
theorem goTo_self (s : State ι α σ γ) (t : ι) : s.goTo t (s.loc t) = s := by
  rw [goTo, Function.update_eq_self]

omit [DecidableEq ι] in
theorem setChan_self {s : State ι α σ γ} {c : κ} {vs : List (α c)} (h : vs = s.chan c) :
    s.setChan c vs = s := by
  rw [setChan, h, Function.update_eq_self]

end State

/-- One step of thread `t`, where the outside world says `b`. A channel `c` has room for `cap c`
values. -/
def step (p : Program ι α σ γ β) (cap : κ → Nat) (s : State ι α σ γ) :
    ι × β → Option (State ι α σ γ)
  | (t, b) =>
    match p t (s.loc t) with
    | .stop => none
    | .work f => (f b s.mem).map fun (l, mem) ↦ { s.goTo t l with mem }
    | .put c v k =>
      if (s.chan c).length < cap c then some ((s.setChan c (s.chan c ++ [v])).goTo t k) else none
    | .get c k =>
      match s.chan c with
      | [] => none
      | v :: vs => some ((s.setChan c vs).goTo t (k v))

/-- Where a thread has to stay: at its end, at work that it cannot do, at a channel that is full or
empty. -/
def Blocked (cap : κ → Nat) (s : State ι α σ γ) (b : β) : Instr α σ γ β → Prop
  | .stop => True
  | .work f => f b s.mem = none
  | .put c _ _ => cap c ≤ (s.chan c).length
  | .get c _ => s.chan c = []

/-- Threads that pass values at once. -/
def machine (p : Program ι α σ γ β) (cap : κ → Nat) (init : State ι α σ γ → Prop) :
    Machine (State ι α σ γ) (ι × β) where
  init := init
  step := step p cap

/-- What a step of thread `t` does. -/
inductive Effect (p : Program ι α σ γ β) (cap : κ → Nat) (s : State ι α σ γ) (t : ι) :
    State ι α σ γ → Prop where
  | work {f : β → γ → Option (σ × γ)} {b : β} {l : σ} {mem : γ}
      (hc : p t (s.loc t) = .work f) (hf : f b s.mem = some (l, mem)) :
      Effect p cap s t { s.goTo t l with mem }
  | put {c : κ} {v : α c} {k : σ} (hc : p t (s.loc t) = .put c v k)
      (hr : (s.chan c).length < cap c) :
      Effect p cap s t ((s.setChan c (s.chan c ++ [v])).goTo t k)
  | get {c : κ} {v : α c} {vs : List (α c)} {k : α c → σ} (hc : p t (s.loc t) = .get c k)
      (hv : s.chan c = v :: vs) : Effect p cap s t ((s.setChan c vs).goTo t (k v))

section

variable {p : Program ι α σ γ β} {cap : κ → Nat} {s s' : State ι α σ γ} {t : ι} {b : β}

theorem step_effect (h : step p cap s (t, b) = some s') : Effect p cap s t s' := by
  unfold step at h
  dsimp only at h
  split at h
  · cases h
  · next f hc =>
    rcases Option.map_eq_some_iff.mp h with ⟨⟨l, mem⟩, hf, rfl⟩
    exact .work hc hf
  · next c v k hc =>
    rcases Option.ite_none_right_eq_some.mp h with ⟨hr, ⟨⟩⟩
    exact .put hc hr
  · next c k hc =>
    split at h
    · cases h
    · next v vs hv =>
      cases h
      exact .get hc hv

/-- No channel has more values than it has room for. -/
theorem Effect.length_le (h : Effect p cap s t s') (hb : ∀ c, (s.chan c).length ≤ cap c) (c : κ) :
    (s'.chan c).length ≤ cap c := by
  cases h with
  | work => exact hb c
  | @put d v k hc hr =>
    rw [State.chan_goTo, State.chan_setChan]
    by_cases hcd : c = d
    · subst hcd
      rw [Function.update_self, List.length_append, List.length_singleton]
      exact hr
    · rw [Function.update_of_ne hcd]
      exact hb c
  | @get d v vs k hc hv =>
    rw [State.chan_goTo, State.chan_setChan]
    by_cases hcd : c = d
    · subst hcd
      have hle := hb c
      rw [hv, List.length_cons] at hle
      rw [Function.update_self]
      omega
    · rw [Function.update_of_ne hcd]
      exact hb c

theorem step_put {c : κ} {v : α c} {k : σ} (hc : p t (s.loc t) = .put c v k)
    (hr : (s.chan c).length < cap c) :
    step p cap s (t, b) = some ((s.setChan c (s.chan c ++ [v])).goTo t k) := by
  unfold step
  dsimp only
  rw [hc]
  exact if_pos hr

theorem step_get {c : κ} {v : α c} {vs : List (α c)} {k : α c → σ}
    (hc : p t (s.loc t) = .get c k) (hv : s.chan c = v :: vs) :
    step p cap s (t, b) = some ((s.setChan c vs).goTo t (k v)) := by
  unfold step
  dsimp only
  rw [hc]
  dsimp only
  rw [hv]

theorem step_work {f : β → γ → Option (σ × γ)} {l : σ} {mem : γ} (hc : p t (s.loc t) = .work f)
    (hf : f b s.mem = some (l, mem)) : step p cap s (t, b) = some { s.goTo t l with mem } := by
  unfold step
  dsimp only
  rw [hc]
  dsimp only
  rw [hf]
  rfl

end

theorem step_eq_none_iff {p : Program ι α σ γ β} {cap : κ → Nat} {s : State ι α σ γ} {t : ι}
    {b : β} : step p cap s (t, b) = none ↔ Blocked cap s b (p t (s.loc t)) := by
  unfold step
  dsimp only
  cases p t (s.loc t) with
  | stop => exact iff_of_true rfl trivial
  | work f => exact Option.map_eq_none_iff
  | put c v k =>
    dsimp only [Blocked]
    by_cases hr : (s.chan c).length < cap c
    · rw [if_pos hr]
      exact iff_of_false nofun (Nat.not_le.mpr hr)
    · rw [if_neg hr]
      exact iff_of_true rfl (Nat.not_lt.mp hr)
  | get c k =>
    dsimp only [Blocked]
    cases s.chan c with
    | nil => exact iff_of_true rfl rfl
    | cons v vs => exact iff_of_false nofun nofun

/-! ### What is neither made nor lost -/

section Stock

variable [Fintype ι] [Fintype κ] {X : Type}

/-- Nothing, or one thing. -/
def bag (x : Option X) : Multiset X := x.toList

@[simp] theorem bag_none : bag (none : Option X) = 0 := rfl

@[simp] theorem bag_some (x : X) : bag (some x) = {x} := rfl

@[simp] theorem mem_bag {x : X} {o : Option X} : x ∈ bag o ↔ o = some x := by
  cases o with
  | none => exact iff_of_false (Multiset.notMem_zero x) nofun
  | some y => rw [bag_some, Multiset.mem_singleton, Option.some_inj, eq_comm]

theorem sum_map_singleton (xs : List X) : (xs.map fun x ↦ ({x} : Multiset X)).sum = xs := by
  induction xs with
  | nil => rfl
  | cons x xs ih =>
    rw [List.map_cons, List.sum_cons, ih]
    rfl

theorem card_bag_le (x : Option X) : (bag x).card ≤ 1 := by
  cases x with
  | none => exact Nat.zero_le _
  | some y => exact Nat.le_refl _

theorem card_sum_bag_le (xs : List (Option X)) : (xs.map bag).sum.card ≤ xs.length := by
  induction xs with
  | nil => exact Nat.le_refl _
  | cons x xs ih =>
    have hx := card_bag_le x
    rw [List.map_cons, List.sum_cons, Multiset.card_add, List.length_cons]
    omega

/-- As many things as there are values, if none of them is nothing. -/
theorem card_sum_bag {xs : List (Option X)} (h : none ∉ xs) :
    (xs.map bag).sum.card = xs.length := by
  induction xs with
  | nil => rfl
  | cons x xs ih =>
    rw [List.mem_cons, not_or] at h
    cases x with
    | none => exact absurd rfl h.1
    | some y =>
      rw [List.map_cons, List.sum_cons, bag_some, Multiset.card_add, Multiset.card_singleton,
        ih h.2, List.length_cons, Nat.add_comm]

/-- The things that the values in the channels carry, and those that the threads have. -/
def stock (w : (c : κ) → α c → Multiset X) (h : ι → σ → Multiset X) (s : State ι α σ γ) :
    Multiset X :=
  ∑ c, ((s.chan c).map (w c)).sum + ∑ t, h t (s.loc t)

/-- Threads have what they get and no longer have what they put. -/
structure Balanced (p : Program ι α σ γ β) (w : (c : κ) → α c → Multiset X)
    (h : ι → σ → Multiset X) : Prop where
  put : ∀ t l c v k, p t l = .put c v k → h t l = w c v + h t k
  get : ∀ t l c k v, p t l = .get c k → h t (k v) = w c v + h t l
  work : ∀ t l f b m l' m', p t l = .work f → f b m = some (l', m') → h t l' = h t l

omit [DecidableEq κ] [Fintype κ] in
theorem sum_goTo (h : ι → σ → Multiset X) (s : State ι α σ γ) (t : ι) (l : σ) :
    ∑ u, h u ((s.goTo t l).loc u) + h t (s.loc t) = ∑ u, h u (s.loc u) + h t l := by
  have he : ∑ u ∈ Finset.univ.erase t, h u ((s.goTo t l).loc u) =
      ∑ u ∈ Finset.univ.erase t, h u (s.loc u) := by
    apply Finset.sum_congr rfl
    intro u hu
    rw [State.loc_goTo, Function.update_of_ne (Finset.ne_of_mem_erase hu)]
  rw [← Finset.add_sum_erase _ (fun u ↦ h u ((s.goTo t l).loc u)) (Finset.mem_univ t),
    ← Finset.add_sum_erase _ (fun u ↦ h u (s.loc u)) (Finset.mem_univ t), he, State.loc_goTo,
    Function.update_self]
  abel

omit [Fintype ι] [DecidableEq ι] in
theorem sum_setChan (w : (c : κ) → α c → Multiset X) (s : State ι α σ γ) (c : κ)
    (vs : List (α c)) :
    ∑ d, (((s.setChan c vs).chan d).map (w d)).sum + ((s.chan c).map (w c)).sum =
      ∑ d, ((s.chan d).map (w d)).sum + (vs.map (w c)).sum := by
  have he : ∑ d ∈ Finset.univ.erase c, (((s.setChan c vs).chan d).map (w d)).sum =
      ∑ d ∈ Finset.univ.erase c, ((s.chan d).map (w d)).sum := by
    apply Finset.sum_congr rfl
    intro d hd
    rw [State.chan_setChan, Function.update_of_ne (Finset.ne_of_mem_erase hd)]
  rw [← Finset.add_sum_erase _ (fun d ↦ (((s.setChan c vs).chan d).map (w d)).sum)
      (Finset.mem_univ c), ← Finset.add_sum_erase _ (fun d ↦ ((s.chan d).map (w d)).sum)
      (Finset.mem_univ c), he, State.chan_setChan, Function.update_self]
  abel

section

variable (w : (c : κ) → α c → Multiset X) (h : ι → σ → Multiset X) (s : State ι α σ γ) {t : ι}

omit [DecidableEq κ] in
/-- A thread that goes on has what it has at its new place. -/
theorem stock_goTo (l : σ) :
    stock w h (s.goTo t l) + h t (s.loc t) = stock w h s + h t l := by
  rw [stock, stock, add_assoc, sum_goTo, add_assoc]
  rfl

variable {w h s}

/-- A value that is put carries what its thread no longer has. -/
theorem stock_put {c : κ} {v : α c} {k : σ} (hk : h t (s.loc t) = w c v + h t k) :
    stock w h ((s.setChan c (s.chan c ++ [v])).goTo t k) = stock w h s := by
  have hs := sum_goTo h s t k
  have hq := sum_setChan w s c (s.chan c ++ [v])
  rw [hk, ← add_assoc] at hs
  rw [List.map_append, List.sum_append, List.map_singleton, List.sum_singleton,
    add_comm _ (w c v), ← add_assoc] at hq
  change ∑ d, (((s.setChan c (s.chan c ++ [v])).chan d).map (w d)).sum +
    ∑ u, h u ((s.goTo t k).loc u) = _
  rw [stock, add_right_cancel hq, ← add_right_cancel hs]
  abel

/-- A thread has what the value carries that it gets. -/
theorem stock_get {c : κ} {v : α c} {vs : List (α c)} {k : σ} (hv : s.chan c = v :: vs)
    (hk : h t k = w c v + h t (s.loc t)) :
    stock w h ((s.setChan c vs).goTo t k) = stock w h s := by
  have hs := sum_goTo h s t k
  have hq := sum_setChan w s c vs
  rw [hk, ← add_assoc] at hs
  rw [hv, List.map_cons, List.sum_cons, ← add_assoc] at hq
  change ∑ d, (((s.setChan c vs).chan d).map (w d)).sum + ∑ u, h u ((s.goTo t k).loc u) = _
  rw [stock, add_right_cancel hs, ← add_right_cancel hq]
  abel

end

omit [DecidableEq ι] [DecidableEq κ] in
theorem card_stock (w : (c : κ) → α c → Multiset X) (h : ι → σ → Multiset X)
    (s : State ι α σ γ) : (stock w h s).card =
      ∑ c, ((s.chan c).map fun v ↦ (w c v).card).sum + ∑ t, (h t (s.loc t)).card := by
  have hsum (c : κ) :
      ((s.chan c).map (w c)).sum.card = ((s.chan c).map fun v ↦ (w c v).card).sum := by
    have hl := map_list_sum Multiset.cardHom ((s.chan c).map (w c))
    rw [List.map_map] at hl
    exact hl
  rw [stock, Multiset.card_add, Multiset.card_sum, Multiset.card_sum]
  exact congrArg (· + _) (Finset.sum_congr rfl fun c _ ↦ hsum c)

/-- Balanced programs neither make nor lose anything. -/
theorem Balanced.stock_eq {p : Program ι α σ γ β} {w : (c : κ) → α c → Multiset X}
    {h : ι → σ → Multiset X} (hb : Balanced p w h) {cap : κ → Nat} {s s' : State ι α σ γ} {t : ι}
    (he : Effect p cap s t s') : stock w h s' = stock w h s := by
  cases he with
  | @work f b l mem hc hf =>
    have hs := stock_goTo w h s (t := t) l
    rw [hb.work t _ f b _ _ _ hc hf] at hs
    exact add_right_cancel hs
  | put hc hr => exact stock_put (hb.put t _ _ _ _ hc)
  | get hc hv => exact stock_get hv (hb.get t _ _ _ _ hc)

omit [DecidableEq ι] [DecidableEq κ] in
/-- No thread has more than there is. -/
theorem held_le (w : (c : κ) → α c → Multiset X) (h : ι → σ → Multiset X) (s : State ι α σ γ)
    (t : ι) : h t (s.loc t) ≤ stock w h s :=
  (Finset.single_le_sum (f := fun u ↦ h u (s.loc u)) (fun _ _ ↦ Multiset.zero_le _)
    (Finset.mem_univ t)).trans (Multiset.le_add_left _ _)

omit [DecidableEq κ] in
/-- Two different threads have no more than there is. -/
theorem held_add_held_le (w : (c : κ) → α c → Multiset X) (h : ι → σ → Multiset X)
    (s : State ι α σ γ) {t u : ι} (htu : t ≠ u) : h t (s.loc t) + h u (s.loc u) ≤ stock w h s := by
  have hu := Finset.single_le_sum (f := fun v ↦ h v (s.loc v)) (fun _ _ ↦ Multiset.zero_le _)
    (Finset.mem_erase.mpr ⟨htu.symm, Finset.mem_univ u⟩)
  refine le_trans ?_ (Multiset.le_add_left _ _)
  rw [← Finset.add_sum_erase _ (fun v ↦ h v (s.loc v)) (Finset.mem_univ t)]
  exact add_le_add_right hu _

omit [DecidableEq ι] [DecidableEq κ] in
/-- Nor do a thread and a channel. -/
theorem held_add_chan_le (w : (c : κ) → α c → Multiset X) (h : ι → σ → Multiset X)
    (s : State ι α σ γ) (t : ι) (c : κ) :
    h t (s.loc t) + ((s.chan c).map (w c)).sum ≤ stock w h s := by
  have ht := Finset.single_le_sum (f := fun u ↦ h u (s.loc u)) (fun _ _ ↦ Multiset.zero_le _)
    (Finset.mem_univ t)
  have hc := Finset.single_le_sum (f := fun d ↦ ((s.chan d).map (w d)).sum)
    (fun _ _ ↦ Multiset.zero_le _) (Finset.mem_univ c)
  rw [add_comm]
  exact add_le_add hc ht

omit [DecidableEq κ] in
/-- If there is only one of everything, what a thread has no other has, and no value carries. -/
theorem apart_of_nodup (w : (c : κ) → α c → Multiset X) (h : ι → σ → Multiset X)
    {s : State ι α σ γ} (hd : (stock w h s).Nodup) {t : ι} {x : X} (hx : x ∈ h t (s.loc t)) :
    (∀ u, u ≠ t → x ∉ h u (s.loc u)) ∧ ∀ c, ∀ v ∈ s.chan c, x ∉ w c v := by
  constructor
  · intro u hu hxu
    have hn := Multiset.nodup_of_le (held_add_held_le w h s hu.symm) hd
    exact Multiset.disjoint_left.mp (Multiset.nodup_add.mp hn).2.2 hx hxu
  · intro c v hv hxv
    have hn := Multiset.nodup_of_le (held_add_chan_le w h s t c) hd
    have hmem : x ∈ ((s.chan c).map (w c)).sum :=
      Multiset.mem_of_le (List.single_le_sum (by simp) _ (List.mem_map_of_mem hv)) hxv
    exact Multiset.disjoint_left.mp (Multiset.nodup_add.mp hn).2.2 hx hmem

end Stock

end CtrlrFx.Base.Network
