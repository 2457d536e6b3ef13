import CtrlrFx.Os.Pool

/-!
# Acquisition queue sets

`CtrlrFx/AcqBufQueue.h`: an array of message queues of pointers to buffers, the first of which is
the pool of empty ones. One thread clears or releases the set while no other is active. The call of
`try_get`, which a message queue does not have, is read as `tryget`.
-/

namespace CtrlrFx.Os
open Base Data

namespace MsgQueue

variable {T : Type}

/-- `tryget` of a thread that is alone with the queue; `CtrlrFx/MsgQueue.h:444–450`. -/
def trygetAlone (q : MsgQueue T) : Option (Option T × MsgQueue T) :=
  if q.dataSem = 0 then some (none, q)
  else q.getAlone.map fun (v, q') ↦ (some v, q')

theorem Quiet.trygetAlone_nil {q : MsgQueue T} (h : q.Quiet) (hc : q.contents = []) :
    q.trygetAlone = some (none, q) := by
  have hl := length_contents h.wf
  rw [hc, List.length_nil] at hl
  exact if_pos (h.datas.trans hl.symm)

theorem Quiet.trygetAlone_cons {q : MsgQueue T} {v : T} {vs : List T} (h : q.Quiet)
    (hc : q.contents = v :: vs) :
    ∃ q', q.trygetAlone = some (some v, q') ∧ q'.Quiet ∧ q'.contents = vs ∧
      q'.capacity = q.capacity := by
  have hl := length_contents h.wf
  rw [hc, List.length_cons] at hl
  have hd := h.datas
  rcases h.getAlone hc with ⟨q', hg, hq⟩
  refine ⟨q', ?_, hq⟩
  rw [trygetAlone, if_neg (by omega), hg, Option.map_some]

end MsgQueue

/-- The array of `nque` queues, and the buffers on the heap; `CtrlrFx/AcqBufQueue.h:43–44`. -/
structure AcqBufQueue (A T : Type) where
  nque : Nat
  que : Nat → MsgQueue A
  heap : A → Buffer T

/-- Where a call is after some of its iterations: at its end, at a queue that has no slot left, at
an element that the array does not have, or still under way. -/
inductive Outcome (σ : Type) where
  | done (s : σ)
  | blocked (s : σ)
  | outside (i : Nat) (s : σ)
  | running (s : σ)

namespace Outcome

variable {σ : Type}

/-- Goes on once the first call is done. -/
def andThen (o : Outcome σ) (f : σ → Outcome σ) : Outcome σ :=
  match o with
  | .done s => f s
  | .blocked s => .blocked s
  | .outside i s => .outside i s
  | .running s => .running s

@[simp] theorem andThen_done (s : σ) (f : σ → Outcome σ) : (Outcome.done s).andThen f = f s := rfl

end Outcome

namespace AcqBufQueue

variable {A T : Type}

/-- `que_[i] = q`. -/
def setQue (s : AcqBufQueue A T) (i : Nat) (q : MsgQueue A) : AcqBufQueue A T :=
  { s with que := Function.update s.que i q }

@[simp] theorem que_setQue (s : AcqBufQueue A T) (i : Nat) (q : MsgQueue A) :
    (s.setQue i q).que = Function.update s.que i q := rfl

@[simp] theorem nque_setQue (s : AcqBufQueue A T) (i : Nat) (q : MsgQueue A) :
    (s.setQue i q).nque = s.nque := rfl

/-- `que_[i].put(a)`. -/
def put (s : AcqBufQueue A T) (i : Nat) (a : A) : Outcome (AcqBufQueue A T) :=
  if i < s.nque then
    match (s.que i).putAlone a with
    | some q => .done (s.setQue i q)
    | none => .blocked s
  else .outside i s

theorem put_of_some {s : AcqBufQueue A T} {i : Nat} {a : A} {q : MsgQueue A} (hi : i < s.nque)
    (hq : (s.que i).putAlone a = some q) : s.put i a = .done (s.setQue i q) := by
  rw [put, if_pos hi, hq]

/-! ### Sets at rest -/

/-- No operation is in progress on any of the queues, which have `cap` slots each. -/
structure Idle (s : AcqBufQueue A T) (cap : Nat) : Prop where
  quiet : ∀ i < s.nque, (s.que i).Quiet
  capacity_eq : ∀ i < s.nque, (s.que i).capacity = cap

theorem Idle.set {s : AcqBufQueue A T} {cap : Nat} (h : s.Idle cap) {i : Nat} {q : MsgQueue A}
    (hq : q.Quiet) (hcap : q.capacity = cap) : (s.setQue i q).Idle cap := by
  constructor
  · intro j hj
    by_cases he : j = i
    · subst he
      rwa [que_setQue, Function.update_self]
    · rw [que_setQue, Function.update_of_ne he]
      exact h.quiet j hj
  · intro j hj
    by_cases he : j = i
    · subst he
      rwa [que_setQue, Function.update_self]
    · rw [que_setQue, Function.update_of_ne he]
      exact h.capacity_eq j hj

/-- What is in all queues, the first one first. -/
def contents (s : AcqBufQueue A T) : List A :=
  (List.range s.nque).flatMap fun i ↦ (s.que i).contents

/-! ### Filling -/

section Resize

variable [DecidableEq A]

/-- Puts new buffers at these addresses, each on its block, into the first queue;
`CtrlrFx/AcqBufQueue.h:152–153`. -/
def fill : List (A × List T) → AcqBufQueue A T → Outcome (AcqBufQueue A T)
  | [], s => .done s
  | (a, m) :: bs, s =>
    ({ s with heap := Function.update s.heap a (.alloc m) }.put 0 a).andThen (fill bs)

/-- New queues on new `cells`, filled with new buffers; `CtrlrFx/AcqBufQueue.h:134–154`. -/
def resize (heap : A → Buffer T) (nque : Nat) (cells : Nat → List A) (bufs : List (A × List T)) :
    Outcome (AcqBufQueue A T) :=
  fill bufs { nque, que := fun i ↦ MsgQueue.unset.resize (cells i), heap }

/-- Filling a set that has room never blocks. -/
theorem fill_spec {s : AcqBufQueue A T} {cap : Nat} (hn : 0 < s.nque) (h : s.Idle cap)
    {bufs : List (A × List T)} (hr : (s.que 0).contents.length + bufs.length ≤ cap) :
    ∃ s', fill bufs s = .done s' ∧ s'.nque = s.nque ∧ s'.Idle cap ∧
      (s'.que 0).contents = (s.que 0).contents ++ bufs.map Prod.fst ∧
      ∀ i, i ≠ 0 → s'.que i = s.que i := by
  induction bufs generalizing s with
  | nil => exact ⟨s, rfl, rfl, h, (List.append_nil _).symm, fun _ _ ↦ rfl⟩
  | cons b bs ih =>
    rcases b with ⟨a, m⟩
    rw [List.length_cons] at hr
    obtain ⟨t, ht⟩ : ∃ t, { s with heap := Function.update s.heap a (.alloc m) } = t := ⟨_, rfl⟩
    have hque : t.que = s.que := by rw [← ht]
    have hnt : t.nque = s.nque := by rw [← ht]
    have hidle : t.Idle cap := by
      rw [← ht]
      exact ⟨h.quiet, h.capacity_eq⟩
    have hq0 := hidle.quiet 0 (by omega)
    have hc0 := hidle.capacity_eq 0 (by omega)
    rcases hq0.putAlone a (by rw [hc0, hque]; omega) with ⟨q, hp, hq, hqc, hqcap⟩
    have hlen : ((t.setQue 0 q).que 0).contents = (s.que 0).contents ++ [a] := by
      rw [que_setQue, Function.update_self, hqc, hque]
    rcases ih (s := t.setQue 0 q) (by rw [nque_setQue]; omega) (hidle.set hq (hqcap.trans hc0))
      (by rw [hlen, List.length_append, List.length_singleton]; omega) with
      ⟨u, hu, hnu, hidle', hcu, hou⟩
    refine ⟨u, ?_, ?_, hidle', ?_, ?_⟩
    · rw [fill, ht, put_of_some (by omega) hp, Outcome.andThen_done, hu]
    · rw [hnu, nque_setQue, hnt]
    · rw [hcu, hlen, List.append_assoc, List.singleton_append, List.map_cons]
    · intro i hi
      rw [hou i hi, que_setQue, Function.update_of_ne hi, hque]

omit [DecidableEq A] in
/-- A put leaves the buffers alone. -/
theorem put_heap {s t : AcqBufQueue A T} {i : Nat} {a : A} (h : s.put i a = .done t) :
    t.heap = s.heap := by
  unfold put at h
  split at h
  · split at h
    · cases h
      rfl
    · cases h
  · cases h

/-- Every address that is filled in has one of its blocks. -/
theorem fill_heap {s s' : AcqBufQueue A T} {bufs : List (A × List T)}
    (h : fill bufs s = .done s') (a : A) :
    (∃ m, (a, m) ∈ bufs ∧ s'.heap a = .alloc m) ∨
      (∀ m, (a, m) ∉ bufs) ∧ s'.heap a = s.heap a := by
  induction bufs generalizing s with
  | nil =>
    cases h
    exact .inr ⟨fun _ ↦ List.not_mem_nil, rfl⟩
  | cons b bs ih =>
    rcases b with ⟨c, m⟩
    rw [fill] at h
    obtain ⟨o, ho⟩ : ∃ o, { s with heap := Function.update s.heap c (.alloc m) }.put 0 c = o :=
      ⟨_, rfl⟩
    rw [ho] at h
    cases o with
    | done t =>
      have hheap := put_heap ho
      rcases ih h with ⟨k, hk, hv⟩ | ⟨hk, hv⟩
      · exact .inl ⟨k, List.mem_cons_of_mem _ hk, hv⟩
      · by_cases hac : a = c
        · subst hac
          left
          refine ⟨m, List.mem_cons_self, ?_⟩
          rw [hv, hheap]
          exact Function.update_self ..
        · right
          refine ⟨fun k hm ↦ ?_, ?_⟩
          · rcases List.mem_cons.mp hm with ⟨⟨⟩⟩ | hm
            · exact hac rfl
            · exact hk k hm
          · rw [hv, hheap]
            exact Function.update_of_ne hac ..
    | blocked t => cases h
    | outside i t => cases h
    | running t => cases h

/-- A new set is at rest, with its buffers in the first queue. -/
theorem resize_spec (heap : A → Buffer T) {nque : Nat} (hn : 0 < nque) {cells : Nat → List A}
    {bufs : List (A × List T)} (hc : ∀ i < nque, (cells i).length = bufs.length) :
    ∃ s, resize heap nque cells bufs = .done s ∧ s.nque = nque ∧ s.Idle bufs.length ∧
      (s.que 0).contents = bufs.map Prod.fst ∧ ∀ i, i ≠ 0 → (s.que i).contents = [] := by
  obtain ⟨t, ht⟩ : ∃ t : AcqBufQueue A T,
      { nque, que := fun i ↦ MsgQueue.unset.resize (cells i), heap } = t := ⟨_, rfl⟩
  have hempty : ∀ i, (t.que i).contents = [] := by
    intro i
    rw [← ht]
    exact MsgQueue.contents_resize _ _
  have hnt : t.nque = nque := by rw [← ht]
  have hidle : t.Idle bufs.length := by
    constructor
    · intro i _
      rw [← ht]
      exact MsgQueue.quiet_resize _ _
    · intro i hi
      rw [hnt] at hi
      rw [← ht]
      exact (MsgQueue.capacity_resize _ _).trans (hc i hi)
  have hroom : (t.que 0).contents.length + bufs.length ≤ bufs.length := by
    rw [hempty 0, List.length_nil]
    omega
  rcases fill_spec (by omega) hidle hroom with ⟨s, hs, hns, hsi, hsc, hso⟩
  refine ⟨s, ?_, hns.trans hnt, hsi, ?_, ?_⟩
  · rw [resize, ht, hs]
  · rw [hsc, hempty 0, List.nil_append]
  · intro i hi
    rw [hso i hi, hempty i]

end Resize

/-! ### Clearing -/

section Clear

variable [DecidableEq A]

/-- `p->clear()`. -/
def clearBuf (s : AcqBufQueue A T) (a : A) : AcqBufQueue A T :=
  { s with heap := Function.update s.heap a (s.heap a).clear }

/-- The inner loop, for `fuel` iterations at most; `CtrlrFx/AcqBufQueue.h:167–170`. -/
def drain (i : Nat) : Nat → AcqBufQueue A T → Outcome (AcqBufQueue A T)
  | 0, s => .running s
  | fuel + 1, s =>
    if i < s.nque then
      match (s.que i).trygetAlone with
      | some (none, _) => .done s
      | some (some a, q) => (((s.setQue i q).clearBuf a).put 0 a).andThen (drain i fuel)
      | none => .outside i s
    else .outside i s

/-- The outer loop from queue `i` on; `CtrlrFx/AcqBufQueue.h:164–171`. -/
def clearFrom (fuel : Nat) : Nat → AcqBufQueue A T → Outcome (AcqBufQueue A T)
  | 0, s => .done s
  | i + 1, s => (drain (i + 1) fuel s).andThen (clearFrom fuel i)

/-- `CtrlrFx/AcqBufQueue.h:161–172`. -/
def clear (s : AcqBufQueue A T) (fuel : Nat) : Outcome (AcqBufQueue A T) :=
  clearFrom fuel (MsgQueue.decrSize s.nque) s

/-- The contents of queues `k` to 1, the highest one first. -/
def upper (s : AcqBufQueue A T) : Nat → List A
  | 0 => []
  | k + 1 => (s.que (k + 1)).contents ++ s.upper k

omit [DecidableEq A] in
theorem upper_congr {s s' : AcqBufQueue A T} {k : Nat}
    (h : ∀ j, j ≠ 0 → j ≤ k → s'.que j = s.que j) : s'.upper k = s.upper k := by
  induction k with
  | zero => rfl
  | succ k ih =>
    rw [upper, upper, h (k + 1) (by omega) (Nat.le_refl _), ih fun j h0 hj ↦ h j h0 (by omega)]

omit [DecidableEq A] in
/-- The queues hold what the first and the others hold. -/
theorem contents_perm {s : AcqBufQueue A T} (hn : 1 ≤ s.nque) :
    s.contents.Perm ((s.que 0).contents ++ s.upper (s.nque - 1)) := by
  have hrange : ∀ k, ((List.range (k + 1)).flatMap fun i ↦ (s.que i).contents).Perm
      ((s.que 0).contents ++ s.upper k) := by
    intro k
    induction k with
    | zero => simp [upper]
    | succ k ih =>
      rw [List.range_succ, List.flatMap_append, List.flatMap_singleton, upper]
      refine (ih.append_right _).trans ?_
      rw [List.append_assoc]
      exact List.perm_append_comm.append_left _
  have hk := hrange (s.nque - 1)
  rwa [Nat.sub_add_cancel hn] at hk

omit [DecidableEq A] in
theorem mem_upper {s : AcqBufQueue A T} {k i : Nat} {a : A} (h0 : i ≠ 0) (hi : i ≤ k)
    (ha : a ∈ (s.que i).contents) : a ∈ s.upper k := by
  induction k with
  | zero => exact absurd (Nat.le_zero.mp hi) h0
  | succ k ih =>
    rw [upper, List.mem_append]
    by_cases he : i = k + 1
    · exact .inl (he ▸ ha)
    · exact .inr (ih (by omega))

/-- Buffers have gone from queue `i` to the first one, cleared on their way. -/
structure Moved (i : Nat) (as : List A) (s s' : AcqBufQueue A T) : Prop where
  nque_eq : s'.nque = s.nque
  pool : (s'.que 0).contents = (s.que 0).contents ++ as
  source : (s.que i).contents = as ++ (s'.que i).contents
  others : ∀ j, j ≠ 0 → j ≠ i → s'.que j = s.que j
  cleared : ∀ a ∈ as, s'.heap a = (s.heap a).clear
  kept : ∀ a, a ∉ as → s'.heap a = s.heap a

omit [DecidableEq A] in
theorem Moved.refl (i : Nat) (s : AcqBufQueue A T) : Moved i [] s s where
  nque_eq := rfl
  pool := (List.append_nil _).symm
  source := rfl
  others := fun _ _ _ ↦ rfl
  cleared := fun _ ha ↦ absurd ha List.not_mem_nil
  kept := fun _ _ ↦ rfl

theorem Moved.trans {i : Nat} {as bs : List A} {s t u : AcqBufQueue A T} (h : Moved i as s t)
    (h' : Moved i bs t u) : Moved i (as ++ bs) s u where
  nque_eq := h'.nque_eq.trans h.nque_eq
  pool := by rw [h'.pool, h.pool, List.append_assoc]
  source := by rw [h.source, h'.source, List.append_assoc]
  others := fun j h0 hj ↦ (h'.others j h0 hj).trans (h.others j h0 hj)
  cleared := by
    intro a ha
    by_cases hb : a ∈ bs
    · rw [h'.cleared a hb]
      by_cases hs : a ∈ as
      · rw [h.cleared a hs]
        rfl
      · rw [h.kept a hs]
    · rw [h'.kept a hb]
      exact h.cleared a ((List.mem_append.mp ha).resolve_right hb)
  kept := by
    intro a ha
    rcases not_or.mp (mt List.mem_append.mpr ha) with ⟨hs, hb⟩
    rw [h'.kept a hb, h.kept a hs]

/-- An iteration moves the oldest buffer of its queue, if the first queue has a slot. -/
theorem drain_cons (fuel : Nat) {s : AcqBufQueue A T} {cap i : Nat} {a : A} {as : List A}
    (h : s.Idle cap) (h0 : i ≠ 0) (hi : i < s.nque) (hc : (s.que i).contents = a :: as)
    (hroom : (s.que 0).contents.length < cap) :
    ∃ s', drain i (fuel + 1) s = drain i fuel s' ∧ s'.Idle cap ∧ Moved i [a] s s' := by
  have hn : 0 < s.nque := by omega
  rcases (h.quiet i hi).trygetAlone_cons hc with ⟨q, hg, hq, hqc, hqcap⟩
  rcases (h.quiet 0 hn).putAlone a (by rw [h.capacity_eq 0 hn]; exact hroom) with
    ⟨q₀, hp, hq₀, hqc₀, hqcap₀⟩
  refine ⟨((s.setQue i q).clearBuf a).setQue 0 q₀, ?_, ?_, ?_⟩
  · rw [drain, if_pos hi, hg]
    dsimp only
    have hq0 : ((s.setQue i q).clearBuf a).que 0 = s.que 0 := Function.update_of_ne h0.symm _ _
    rw [put_of_some (show 0 < ((s.setQue i q).clearBuf a).nque from hn) (hq0 ▸ hp),
      Outcome.andThen_done]
  · have hmid : ((s.setQue i q).clearBuf a).Idle cap := by
      have hset := h.set (i := i) hq (hqcap.trans (h.capacity_eq i hi))
      exact ⟨hset.quiet, hset.capacity_eq⟩
    exact hmid.set hq₀ (hqcap₀.trans (h.capacity_eq 0 hn))
  · constructor
    · rfl
    · simp only [setQue, Function.update_self]
      exact hqc₀
    · simp only [setQue, clearBuf, Function.update_of_ne h0, Function.update_self, hc, hqc,
        List.singleton_append]
    · intro j hj0 hj
      simp only [setQue, clearBuf, Function.update_of_ne hj0, Function.update_of_ne hj]
    · intro b hb
      rw [List.mem_singleton.mp hb]
      exact Function.update_self ..
    · intro b hb
      exact Function.update_of_ne (mt List.mem_singleton.mpr hb) _ _

/-- The inner loop moves all of its queue, and stops. -/
theorem drain_spec {s : AcqBufQueue A T} {cap i fuel : Nat} (h : s.Idle cap) (h0 : i ≠ 0)
    (hi : i < s.nque)
    (hroom : (s.que 0).contents.length + (s.que i).contents.length ≤ cap)
    (hf : (s.que i).contents.length < fuel) :
    ∃ s', drain i fuel s = .done s' ∧ s'.Idle cap ∧ Moved i (s.que i).contents s s' := by
  obtain ⟨as, has⟩ : ∃ as, (s.que i).contents = as := ⟨_, rfl⟩
  rw [has] at hroom hf ⊢
  obtain ⟨fuel, rfl⟩ : ∃ k, fuel = k + 1 := ⟨fuel - 1, by omega⟩
  induction as generalizing s fuel with
  | nil =>
    refine ⟨s, ?_, h, .refl i s⟩
    rw [drain, if_pos hi, (h.quiet i hi).trygetAlone_nil has]
  | cons a as ih =>
    rw [List.length_cons] at hroom hf
    rcases drain_cons fuel h h0 hi has (by omega) with ⟨t, ht, hidle, hm⟩
    obtain ⟨fuel, rfl⟩ : ∃ k, fuel = k + 1 := ⟨fuel - 1, by omega⟩
    have hsrc : (t.que i).contents = as := by
      have hs := hm.source
      rw [has, List.singleton_append] at hs
      exact (List.cons.inj hs).2.symm
    have hlen : (t.que 0).contents.length = (s.que 0).contents.length + 1 := by
      rw [hm.pool, List.length_append, List.length_singleton]
    rcases ih hidle (by rw [hm.nque_eq]; exact hi) (by omega) hsrc fuel (by omega) with
      ⟨u, hu, hidle', hm'⟩
    exact ⟨u, ht.trans hu, hidle', hm.trans hm'⟩

/-- The first `k` of the upper queues have been emptied into the first one. -/
structure Collected (k : Nat) (s s' : AcqBufQueue A T) : Prop where
  nque_eq : s'.nque = s.nque
  pool : (s'.que 0).contents = (s.que 0).contents ++ s.upper k
  emptied : ∀ j, j ≠ 0 → j ≤ k → (s'.que j).contents = []
  others : ∀ j, k < j → s'.que j = s.que j
  cleared : ∀ a ∈ s.upper k, s'.heap a = (s.heap a).clear
  kept : ∀ a, a ∉ s.upper k → s'.heap a = s.heap a

theorem clearFrom_spec {s : AcqBufQueue A T} {cap k fuel : Nat} (h : s.Idle cap)
    (hk : k < s.nque) (hroom : (s.que 0).contents.length + (s.upper k).length ≤ cap)
    (hf : cap < fuel) :
    ∃ s', clearFrom fuel k s = .done s' ∧ s'.Idle cap ∧ Collected k s s' := by
  induction k generalizing s with
  | zero =>
    refine ⟨s, rfl, h, rfl, (List.append_nil _).symm, fun j h0 hj ↦ absurd (by omega) h0,
      fun _ _ ↦ rfl, fun _ ha ↦ absurd ha List.not_mem_nil, fun _ _ ↦ rfl⟩
  | succ k ih =>
    rw [upper, List.length_append] at hroom
    rcases drain_spec h (show k + 1 ≠ 0 by omega) hk (by omega) (show _ < fuel by omega) with
      ⟨t, ht, hidle, hm⟩
    have hup : t.upper k = s.upper k := upper_congr fun j h0 hj ↦ hm.others j h0 (by omega)
    have hlen : (t.que 0).contents.length =
        (s.que 0).contents.length + (s.que (k + 1)).contents.length := by
      rw [hm.pool, List.length_append]
    have hempty : (t.que (k + 1)).contents = [] := List.append_right_eq_self.mp hm.source.symm
    rcases ih hidle (by rw [hm.nque_eq]; omega) (by rw [hup]; omega) with ⟨u, hu, hidle', hc⟩
    refine ⟨u, ?_, hidle', ?_⟩
    · rw [clearFrom, ht, Outcome.andThen_done, hu]
    · have hpool := hc.pool
      have hcl := hc.cleared
      have hke := hc.kept
      rw [hup] at hpool hcl hke
      constructor
      · exact hc.nque_eq.trans hm.nque_eq
      · rw [hpool, hm.pool, upper, List.append_assoc]
      · intro j h0 hj
        by_cases he : j = k + 1
        · rw [he, hc.others (k + 1) (Nat.lt_succ_self k), hempty]
        · exact hc.emptied j h0 (by omega)
      · intro j hj
        rw [hc.others j (by omega), hm.others j (by omega) (by omega)]
      · intro a ha
        by_cases hb : a ∈ s.upper k
        · rw [hcl a hb]
          by_cases hs : a ∈ (s.que (k + 1)).contents
          · rw [hm.cleared a hs]
            rfl
          · rw [hm.kept a hs]
        · rw [hke a hb]
          exact hm.cleared a ((List.mem_append.mp ha).resolve_right hb)
      · intro a ha
        rcases not_or.mp (mt List.mem_append.mpr ha) with ⟨hs, hb⟩
        rw [hke a hb, hm.kept a hs]

/-- From every distribution of the buffers over idle queues with a slot for each of them, `clear`
ends without having to wait for a slot, and has all of them in the first queue, those that it moved
cleared. -/
theorem acqBufQueue_clear {s : AcqBufQueue A T} {bufs : List A} (hn : 1 ≤ s.nque)
    (h : s.Idle bufs.length) (hp : s.contents.Perm bufs) (hd : bufs.Nodup) {fuel : Nat}
    (hf : bufs.length < fuel) :
    ∃ s', s.clear fuel = .done s' ∧ (s'.que 0).contents.Nodup ∧
      (∀ a, a ∈ (s'.que 0).contents ↔ a ∈ bufs) ∧
      (∀ i, i ≠ 0 → i < s.nque → (s'.que i).contents = []) ∧
      ∀ a, (∃ i, i ≠ 0 ∧ i < s.nque ∧ a ∈ (s.que i).contents) →
        s'.heap a = (s.heap a).clear := by
  have hperm := (contents_perm hn).symm.trans hp
  have hlen := hperm.length_eq
  rw [List.length_append] at hlen
  rcases clearFrom_spec h (show s.nque - 1 < s.nque by omega) (by omega) hf with
    ⟨s', hs, -, hc⟩
  have hpool := hc.pool
  refine ⟨s', ?_, ?_, ?_, ?_, ?_⟩
  · rw [clear, MsgQueue.decrSize, if_neg (by omega), hs]
  · rw [hpool]
    exact hperm.nodup_iff.mpr hd
  · intro a
    rw [hpool]
    exact hperm.mem_iff
  · intro i h0 hi
    exact hc.emptied i h0 (by omega)
  · rintro a ⟨i, h0, hi, ha⟩
    exact hc.cleared a (mem_upper h0 (by omega) ha)

end Clear
/-- Two buffers in two queues, of which the second has gone around its end. -/
theorem acqBufQueue_clear_two :
    let s : AcqBufQueue Nat Nat :=
      { nque := 2
        que := fun i ↦ if i = 0 then ⟨1, [10, 0], 1, 0, true, 1, 1⟩
          else ⟨1, [0, 11], 0, 1, true, 1, 1⟩
        heap := fun _ ↦ { (Buffer.alloc [5, 7]) with pos := 1 } }
    ∃ s', s.clear 3 = .done s' ∧ (s'.que 0).contents.Nodup ∧
      (∀ a, a ∈ (s'.que 0).contents ↔ a ∈ [10, 11]) ∧
      (∀ i, i ≠ 0 → i < s.nque → (s'.que i).contents = []) ∧
      ∀ a, (∃ i, i ≠ 0 ∧ i < s.nque ∧ a ∈ (s.que i).contents) →
        s'.heap a = (s.heap a).clear := by
  intro s
  have hidle : s.Idle [10, 11].length := by
    constructor
    · intro i _
      by_cases hi : i = 0
      · subst hi
        exact ⟨⟨by decide, by decide, by decide⟩, by decide, by decide⟩
      · rw [show s.que i = ⟨1, [0, 11], 0, 1, true, 1, 1⟩ from if_neg hi]
        exact ⟨⟨by decide, by decide, by decide⟩, by decide, by decide⟩
    · intro i _
      by_cases hi : i = 0
      · subst hi
        rfl
      · rw [show s.que i = ⟨1, [0, 11], 0, 1, true, 1, 1⟩ from if_neg hi]
        rfl
  have hperm : s.contents.Perm [10, 11] := by decide
  exact acqBufQueue_clear (by decide) hidle hperm (by decide) (by decide)

/-! ### Releasing -/

section Release

variable [Zero A]

/-- The loop from queue `i` on, for `fuel` iterations at most. Its condition is `i >= 0`, which
always holds of a `size_t`; `CtrlrFx/AcqBufQueue.h:179–180`. -/
def releaseFrom : Nat → Nat → AcqBufQueue A T → Outcome (AcqBufQueue A T)
  | 0, _, s => .running s
  | fuel + 1, i, s => (s.put i 0).andThen (releaseFrom fuel (MsgQueue.decrSize i))

/-- Puts a null pointer into each queue, the last one first; `CtrlrFx/AcqBufQueue.h:177–181`. -/
def release (s : AcqBufQueue A T) (fuel : Nat) : Outcome (AcqBufQueue A T) :=
  releaseFrom fuel (MsgQueue.decrSize s.nque) s

/-- The loop has no end. -/
theorem releaseFrom_ne_done (fuel i : Nat) (s s' : AcqBufQueue A T) :
    releaseFrom fuel i s ≠ .done s' := by
  induction fuel generalizing i s with
  | zero =>
    intro h
    cases h
  | succ fuel ih =>
    rw [releaseFrom, put]
    split
    · split
      · exact ih _ _
      · intro h
        cases h
    · intro h
      cases h

/-- With a slot in each of the queues `k` to 0 the loop passes them, and then goes outside. -/
theorem releaseFrom_outside {s : AcqBufQueue A T} {k : Nat} (hk : k < s.nque)
    (hlt : s.nque < 2 ^ 64) (hs : ∀ i ≤ k, (s.que i).slotSem ≠ 0) :
    ∃ s', releaseFrom (k + 2) k s = .outside (2 ^ 64 - 1) s' ∧
      (∀ i ≤ k, (s.que i).putAlone 0 = some (s'.que i)) ∧ ∀ i, k < i → s'.que i = s.que i := by
  obtain ⟨q, hq⟩ : ∃ q, (s.que k).putAlone 0 = some q := ⟨_, if_neg (hs k (Nat.le_refl k))⟩
  have hput := put_of_some hk hq
  induction k generalizing s q with
  | zero =>
    refine ⟨s.setQue 0 q, ?_, ?_, ?_⟩
    · rw [releaseFrom, hput, Outcome.andThen_done, releaseFrom, put, if_neg]
      · rfl
      · show ¬(2 ^ 64 - 1 < s.nque)
        omega
    · intro i hi
      rw [Nat.le_zero.mp hi, que_setQue, Function.update_self, hq]
    · intro i hi
      rw [que_setQue, Function.update_of_ne (by omega)]
  | succ k ih =>
    have hother : ∀ i ≤ k, (s.setQue (k + 1) q).que i = s.que i := by
      intro i hi
      rw [que_setQue, Function.update_of_ne (by omega)]
    have hslot : ∀ i ≤ k, ((s.setQue (k + 1) q).que i).slotSem ≠ 0 := by
      intro i hi
      rw [hother i hi]
      exact hs i (by omega)
    have hkn : k < (s.setQue (k + 1) q).nque := by
      rw [nque_setQue]
      omega
    obtain ⟨q', hq'⟩ : ∃ q', ((s.setQue (k + 1) q).que k).putAlone 0 = some q' :=
      ⟨_, if_neg (hslot k (Nat.le_refl k))⟩
    rcases ih hkn hlt hslot q' hq' (put_of_some hkn hq') with ⟨u, hu, hin, hout⟩
    refine ⟨u, ?_, ?_, ?_⟩
    · rw [releaseFrom, hput, Outcome.andThen_done, MsgQueue.decrSize, if_neg (by omega),
        Nat.add_sub_cancel, hu]
    · intro i hi
      by_cases he : i = k + 1
      · rw [he, hq, hout (k + 1) (Nat.lt_succ_self k), que_setQue, Function.update_self]
      · rw [← hin i (by omega), hother i (by omega)]
    · intro i hi
      rw [hout i (by omega), que_setQue, Function.update_of_ne (by omega)]

/-- `release` ends, has released each queue once, and indexes none that the set does not have. -/
structure Releases (s : AcqBufQueue A T) : Prop where
  ends : ∃ fuel s', s.release fuel = .done s' ∧
    ∀ i < s.nque, (s.que i).putAlone 0 = some (s'.que i)
  inside : ∀ fuel i s', s.release fuel ≠ .outside i s'

/-- In whatever state a set is whose queues have a slot each, `release` does not end: it releases
each queue once, and then goes on with the index `2 ^ 64 - 1`. -/
theorem releases_never {s : AcqBufQueue A T} (hn : 1 ≤ s.nque) (hlt : s.nque < 2 ^ 64)
    (hs : ∀ i < s.nque, (s.que i).slotSem ≠ 0) :
    ¬s.Releases ∧ (∀ fuel s', s.release fuel ≠ .done s') ∧
      ∃ s', s.release (s.nque + 1) = .outside (2 ^ 64 - 1) s' ∧
        ∀ i < s.nque, (s.que i).putAlone 0 = some (s'.que i) := by
  have hnever : ∀ fuel s', s.release fuel ≠ .done s' := fun fuel s' ↦
    releaseFrom_ne_done fuel _ s s'
  refine ⟨?_, hnever, ?_⟩
  · rintro ⟨⟨fuel, s', hd, -⟩, -⟩
    exact hnever fuel s' hd
  · rcases releaseFrom_outside (show s.nque - 1 < s.nque by omega) hlt
      (fun i hi ↦ hs i (by omega)) with ⟨s', hr, hin, -⟩
    refine ⟨s', ?_, fun i hi ↦ hin i (by omega)⟩
    rw [show s.nque - 1 + 2 = s.nque + 1 by omega] at hr
    rw [release, MsgQueue.decrSize, if_neg (by omega), hr]

/-- A set of two queues of one slot each. -/
theorem releases_never_two :
    let s : AcqBufQueue Nat Nat :=
      { nque := 2, que := fun _ ↦ MsgQueue.unset.resize [0], heap := fun _ ↦ .empty }
    ¬s.Releases ∧ (∀ fuel s', s.release fuel ≠ .done s') ∧
      ∃ s', s.release 3 = .outside (2 ^ 64 - 1) s' ∧
        ∀ i < 2, (s.que i).putAlone 0 = some (s'.que i) := by
  intro s
  exact releases_never (by decide) (by decide) (fun _ _ ↦ Nat.one_ne_zero)

/-- One queue is enough for the index to go below 0. -/
theorem not_releases_one : ¬∀ s : AcqBufQueue Nat Nat, 1 ≤ s.nque → s.nque < 2 ^ 64 →
    (∀ i < s.nque, (s.que i).slotSem ≠ 0) → s.Releases := by
  intro h
  have hr := h { nque := 1, que := fun _ ↦ MsgQueue.unset.resize [0], heap := fun _ ↦ .empty }
    (by decide) (by decide) (fun _ _ ↦ Nat.one_ne_zero)
  exact hr.inside 2 (2 ^ 64 - 1) _ rfl

end Release
end AcqBufQueue
end CtrlrFx.Os
