import CtrlrFx.Base.Machine
import CtrlrFx.Data.Buffer
import Mathlib.Data.List.Count
import Mathlib.Logic.Function.Basic

/-!
# Buffers in circulation

What a producer and a consumer do with buffers that circulate between two lines: one takes
empty buffers from the pool, fills them with counter values and queues them, the other
empties the queued ones and returns them. The lines are lists and a hand-over is one step;
nothing is said about how the threads wait for each other.
-/

namespace CtrlrFx.Os
open Base Data

/-- The two threads of the pipeline; `test/os/PoolTest/PoolTest.cpp:49–125`. -/
inductive Thread where
  | acq
  | proc
  deriving DecidableEq, Repr

instance : Fintype Thread := ⟨{.acq, .proc}, fun t ↦ by cases t <;> decide⟩

/-- The thread at the other end. -/
def Thread.other : Thread → Thread
  | .acq => .proc
  | .proc => .acq

/-- What a thread is doing with the buffer it holds, if it holds one. -/
inductive Stage (A : Type) where
  | idle
  | taken (b : A)
  | working (b : A)
  | handing (b : A)

/-- The buffers a thread holds. -/
def Stage.held {A : Type} : Stage A → List A
  | .idle => []
  | .taken b | .working b | .handing b => [b]

/-- Both lines, the buffers, the stages of the threads, the counters of both, the errors the
consumer found and the values it read. -/
structure BufLine (A : Type) where
  pool : List A
  que : List A
  heap : A → Buffer UInt32
  stage : Thread → Stage A
  ctr : UInt32
  expected : UInt32
  errors : Nat
  seen : List UInt32

namespace BufLine

variable {A : Type}

/-- Thread `t` moves to `k`. -/
def moveTo (s : BufLine A) (t : Thread) (k : Stage A) : BufLine A :=
  { s with stage := Function.update s.stage t k }

/-- The buffers each thread takes from. -/
def source (s : BufLine A) : Thread → List A
  | .acq => s.pool
  | .proc => s.que

def setSource (s : BufLine A) : Thread → List A → BufLine A
  | .acq, l => { s with pool := l }
  | .proc, l => { s with que := l }

/-- Hands `b` on to the line of the other thread. -/
def hand (s : BufLine A) (t : Thread) (b : A) : BufLine A :=
  s.setSource t.other (s.source t.other ++ [b])

@[simp] theorem stage_moveTo (s : BufLine A) (t : Thread) (k : Stage A) :
    (s.moveTo t k).stage t = k := Function.update_self ..

@[simp] theorem stage_moveTo_other (s : BufLine A) (t : Thread) (k : Stage A) :
    (s.moveTo t k).stage t.other = s.stage t.other := by
  cases t <;> rfl

@[simp] theorem stage_setSource (s : BufLine A) (t : Thread) (l : List A) :
    (s.setSource t l).stage = s.stage := by
  cases t <;> rfl

@[simp] theorem stage_hand (s : BufLine A) (t : Thread) (b : A) : (s.hand t b).stage = s.stage :=
  s.stage_setSource _ _

@[simp] theorem source_moveTo (s : BufLine A) (t u : Thread) (k : Stage A) :
    (s.moveTo t k).source u = s.source u := by
  cases u <;> rfl

@[simp] theorem source_setSource (s : BufLine A) (t : Thread) (l : List A) :
    (s.setSource t l).source t = l := by
  cases t <;> rfl

@[simp] theorem source_setSource_other (s : BufLine A) (t : Thread) (l : List A) :
    (s.setSource t l).source t.other = s.source t.other := by
  cases t <;> rfl

@[simp] theorem source_hand (s : BufLine A) (t : Thread) (b : A) :
    (s.hand t b).source t = s.source t := by
  cases t <;> rfl

@[simp] theorem source_hand_other (s : BufLine A) (t : Thread) (b : A) :
    (s.hand t b).source t.other = s.source t.other ++ [b] := by
  cases t <;> rfl

theorem setSource_self {s : BufLine A} {t : Thread} {l : List A} (h : s.source t = l) :
    s.setSource t l = s := by
  subst h
  cases t <;> rfl

theorem moveTo_self {s : BufLine A} {t : Thread} {k : Stage A} (h : s.stage t = k) :
    s.moveTo t k = s := by
  subst h
  simp only [moveTo, Function.update_eq_self]

theorem moveTo_moveTo (s : BufLine A) (t : Thread) (k k' : Stage A) :
    (s.moveTo t k).moveTo t k' = s.moveTo t k' := by
  simp only [moveTo, Function.update_idem]

variable [DecidableEq A]

def setBuf (s : BufLine A) (b : A) (buf : Buffer UInt32) : BufLine A :=
  { s with heap := Function.update s.heap b buf }

/-- The consumer compares what it read with what it expected. -/
def check (s : BufLine A) (n : UInt32) : BufLine A :=
  { s with
    seen := s.seen ++ [n]
    errors := if n ≠ s.expected then s.errors + 1 else s.errors
    expected := if n ≠ s.expected then n + 1 else s.expected + 1 }

/-- Steps of the two threads. -/
inductive Step (s : BufLine A) : BufLine A → Prop where
  | take {t : Thread} {b : A} {l : List A} : s.stage t = .idle → s.source t = b :: l →
      Step s ((s.setSource t l).moveTo t (.taken b))
  | clear {b : A} : s.stage .acq = .taken b →
      Step s ((s.setBuf b (s.heap b).clear).moveTo .acq (.working b))
  | flip {b : A} : s.stage .proc = .taken b →
      Step s ((s.setBuf b (s.heap b).flip).moveTo .proc (.working b))
  | put {b : A} : s.stage .acq = .working b → (s.heap b).full = false →
      Step s { s.setBuf b ((s.heap b).put s.ctr) with ctr := s.ctr + 1 }
  | get {b : A} {n : UInt32} {buf : Buffer UInt32} : s.stage .proc = .working b →
      (s.heap b).full = false → (s.heap b).get = some (n, buf) → Step s ((s.setBuf b buf).check n)
  | close {t : Thread} {b : A} : s.stage t = .working b → (s.heap b).full = true →
      Step s (s.moveTo t (.handing b))
  | give {t : Thread} {b : A} : s.stage t = .handing b → Step s ((s.hand t b).moveTo t .idle)

/-- The first `n` values of the counter. -/
def counters (n : Nat) : List UInt32 := (List.range n).map UInt32.ofNat

theorem counters_succ (n : Nat) : counters (n + 1) = counters n ++ [UInt32.ofNat n] := by
  simp [counters, List.range_succ]

/-- Every initial part of the counter values is again the counter values. -/
theorem eq_counters_of_prefix {n : Nat} {xs ys : List UInt32} (h : xs ++ ys = counters n) :
    xs = counters xs.length := by
  have hx : xs = (counters n).take xs.length := by rw [← h, List.take_left]
  have hl : xs.length ≤ n := by
    have := congrArg List.length h
    simp only [List.length_append, counters, List.length_map, List.length_range] at this
    omega
  rw [hx]
  simp [counters, ← List.map_take, List.take_range, Nat.min_eq_left hl]

/-- Values in the consumer's hands that it has not read. -/
def unreadOf (heap : A → Buffer UInt32) : Stage A → List UInt32
  | .taken b => (heap b).written
  | .working b => (heap b).unread
  | .idle | .handing _ => []

/-- Values in the producer's hands that it has stored. -/
def storedOf (heap : A → Buffer UInt32) : Stage A → List UInt32
  | .working b | .handing b => (heap b).written
  | .idle | .taken _ => []

/-- All values stored so far, oldest first, wherever they are. -/
def stream (s : BufLine A) : List UInt32 :=
  s.seen ++ unreadOf s.heap (s.stage .proc) ++ s.que.flatMap (fun b ↦ (s.heap b).written) ++
    storedOf s.heap (s.stage .acq)

/-- How often `a` occurs on the lines and in the hands of the threads. -/
def copies (s : BufLine A) (a : A) : Nat :=
  s.pool.count a + s.que.count a + (s.stage .acq).held.count a + (s.stage .proc).held.count a

/-- Every buffer is in one place, all have their size, and the values stored so far are the
successive values of the counter. -/
structure Inv (addrs : List A) (S : Nat) (s : BufLine A) : Prop where
  placed : ∀ a, s.copies a = addrs.count a
  bufs : ∀ a ∈ addrs, (s.heap a).capacity = S ∧ (s.heap a).Valid
  stored : ∃ n, s.stream = counters n ∧ s.ctr = UInt32.ofNat n
  awaited : s.expected = UInt32.ofNat s.seen.length
  correct : s.errors = 0

/-! ### One place for every buffer -/

theorem count_cons_eq (b : A) (l : List A) (a : A) :
    (b :: l).count a = [b].count a + l.count a := by
  rw [← List.singleton_append, List.count_append]

/-- A buffer is on the line of a thread or in its hands, or with the other one. -/
theorem copies_eq (s : BufLine A) (t : Thread) (a : A) :
    s.copies a = (s.source t).count a + (s.source t.other).count a + (s.stage t).held.count a +
      (s.stage t.other).held.count a := by
  cases t with
  | acq => rfl
  | proc =>
    simp only [copies, source, Thread.other]
    omega

/-- A buffer in hand is on no line and in no other hand. -/
theorem Inv.apart {addrs : List A} {S : Nat} {s : BufLine A} (h : Inv addrs S s)
    (hn : addrs.Nodup) {t : Thread} {b : A} (hb : b ∈ (s.stage t).held) :
    b ∈ addrs ∧ b ∉ s.que ∧ ∀ u, u ≠ t → b ∉ (s.stage u).held := by
  have hp := h.placed b
  have h1 := List.nodup_iff_count_le_one.mp hn b
  have hc := List.count_pos_iff.mpr hb
  unfold copies at hp
  cases t with
  | acq =>
    refine ⟨List.count_pos_iff.mp (by omega), List.count_eq_zero.mp (by omega), ?_⟩
    intro u hu
    cases u
    · exact absurd rfl hu
    · exact List.count_eq_zero.mp (by omega)
  | proc =>
    refine ⟨List.count_pos_iff.mp (by omega), List.count_eq_zero.mp (by omega), ?_⟩
    intro u hu
    cases u
    · exact List.count_eq_zero.mp (by omega)
    · exact absurd rfl hu

theorem flatMap_written_update {heap : A → Buffer UInt32} {b : A} {l : List A}
    (buf : Buffer UInt32) (h : b ∉ l) :
    l.flatMap (fun a ↦ (Function.update heap b buf a).written) =
      l.flatMap (fun a ↦ (heap a).written) := by
  rw [List.flatMap_def, List.flatMap_def]
  congr 1
  apply List.map_congr_left
  intro a ha
  have hab : a ≠ b := fun he ↦ h (he ▸ ha)
  rw [Function.update_of_ne hab]

theorem unreadOf_update {heap : A → Buffer UInt32} {b : A} {k : Stage A}
    (buf : Buffer UInt32) (h : b ∉ k.held) :
    unreadOf (Function.update heap b buf) k = unreadOf heap k := by
  cases k with
  | idle => rfl
  | handing a => rfl
  | taken a | working a =>
    have ha : a ≠ b := fun he ↦ h (he ▸ List.mem_singleton_self a)
    simp only [unreadOf, Function.update_of_ne ha]

theorem storedOf_update {heap : A → Buffer UInt32} {b : A} {k : Stage A}
    (buf : Buffer UInt32) (h : b ∉ k.held) :
    storedOf (Function.update heap b buf) k = storedOf heap k := by
  cases k with
  | idle => rfl
  | taken a => rfl
  | handing a | working a =>
    have ha : a ≠ b := fun he ↦ h (he ▸ List.mem_singleton_self a)
    simp only [storedOf, Function.update_of_ne ha]

/-- A buffer replaced by a valid one of its size keeps all buffers in order. -/
theorem Inv.bufs_setBuf {addrs : List A} {S : Nat} {s : BufLine A} (h : Inv addrs S s) (b : A)
    {buf : Buffer UInt32} (hc : buf.capacity = (s.heap b).capacity) (hv : buf.Valid) :
    ∀ a ∈ addrs, ((s.setBuf b buf).heap a).capacity = S ∧ ((s.setBuf b buf).heap a).Valid := by
  intro a ha
  by_cases hab : a = b
  · subst hab
    simp only [setBuf, Function.update_self]
    exact ⟨hc.trans (h.bufs a ha).1, hv⟩
  · simp only [setBuf, Function.update_of_ne hab]
    exact h.bufs a ha

/-! ### The steps keep the buffers and the values -/

variable {addrs : List A} {S : Nat} {s : BufLine A}

theorem Inv.take (h : Inv addrs S s) {t : Thread} {b : A} {l : List A}
    (hk : s.stage t = .idle) (hl : s.source t = b :: l) :
    Inv addrs S ((s.setSource t l).moveTo t (.taken b)) := by
  obtain ⟨n, hn, hc⟩ := h.stored
  have hplaced : ∀ a, copies ((s.setSource t l).moveTo t (.taken b)) a = addrs.count a := by
    intro a
    rw [← h.placed a, copies_eq _ t, copies_eq _ t, hk, hl, count_cons_eq b l]
    simp only [source_moveTo, source_setSource, source_setSource_other, stage_moveTo,
      stage_moveTo_other, stage_setSource, Stage.held, List.count_nil]
    omega
  cases t with
  | acq =>
    refine ⟨hplaced, h.bufs, ⟨n, ?_, hc⟩, h.awaited, h.correct⟩
    rw [← hn]
    simp [stream, moveTo, setSource, hk, storedOf]
  | proc =>
    refine ⟨hplaced, h.bufs, ⟨n, ?_, hc⟩, h.awaited, h.correct⟩
    have hl' : s.que = b :: l := hl
    rw [← hn]
    simp [stream, moveTo, setSource, hk, hl', unreadOf]

theorem Inv.give (h : Inv addrs S s) {t : Thread} {b : A} (hk : s.stage t = .handing b) :
    Inv addrs S ((s.hand t b).moveTo t .idle) := by
  obtain ⟨n, hn, hc⟩ := h.stored
  have hplaced : ∀ a, copies ((s.hand t b).moveTo t .idle) a = addrs.count a := by
    intro a
    rw [← h.placed a, copies_eq _ t, copies_eq _ t, hk]
    simp only [source_moveTo, source_hand, source_hand_other, stage_moveTo, stage_moveTo_other,
      stage_hand, Stage.held, List.count_append, List.count_nil]
    omega
  cases t with
  | acq =>
    refine ⟨hplaced, h.bufs, ⟨n, ?_, hc⟩, h.awaited, h.correct⟩
    rw [← hn]
    simp [stream, moveTo, hand, Thread.other, setSource, source, hk, storedOf]
  | proc =>
    refine ⟨hplaced, h.bufs, ⟨n, ?_, hc⟩, h.awaited, h.correct⟩
    rw [← hn]
    simp [stream, moveTo, hand, Thread.other, setSource, source, hk, unreadOf]

theorem Inv.close (h : Inv addrs S s) {t : Thread} {b : A} (hk : s.stage t = .working b)
    (hf : (s.heap b).full = true) : Inv addrs S (s.moveTo t (.handing b)) := by
  obtain ⟨n, hn, hc⟩ := h.stored
  refine ⟨fun a ↦ ?_, h.bufs, ⟨n, ?_, hc⟩, h.awaited, h.correct⟩
  · rw [← h.placed a]
    cases t <;> simp [copies, moveTo, hk, Stage.held]
  · rw [← hn]
    cases t
    · simp [stream, moveTo, hk, storedOf]
    · simp [stream, moveTo, hk, unreadOf, Buffer.unread_of_full hf]

theorem Inv.clear (h : Inv addrs S s) (hd : addrs.Nodup) {b : A}
    (hk : s.stage .acq = .taken b) :
    Inv addrs S ((s.setBuf b (s.heap b).clear).moveTo .acq (.working b)) := by
  obtain ⟨n, hn, hc⟩ := h.stored
  obtain ⟨-, hq, ho⟩ := h.apart hd (t := .acq) (b := b) (by simp [hk, Stage.held])
  refine ⟨fun a ↦ ?_, h.bufs_setBuf b rfl (Buffer.valid_clear _), ⟨n, ?_, hc⟩, h.awaited,
    h.correct⟩
  · rw [← h.placed a]
    simp [copies, moveTo, setBuf, hk, Stage.held]
  · rw [← hn]
    simp [stream, moveTo, setBuf, hk, storedOf, flatMap_written_update _ hq,
      unreadOf_update _ (ho .proc (by decide))]

theorem Inv.flip (h : Inv addrs S s) (hd : addrs.Nodup) {b : A}
    (hk : s.stage .proc = .taken b) :
    Inv addrs S ((s.setBuf b (s.heap b).flip).moveTo .proc (.working b)) := by
  obtain ⟨n, hn, hc⟩ := h.stored
  obtain ⟨hm, hq, ho⟩ := h.apart hd (t := .proc) (b := b) (by simp [hk, Stage.held])
  refine ⟨fun a ↦ ?_, h.bufs_setBuf b rfl (h.bufs b hm).2.flip, ⟨n, ?_, hc⟩, h.awaited,
    h.correct⟩
  · rw [← h.placed a]
    simp [copies, moveTo, setBuf, hk, Stage.held]
  · rw [← hn]
    simp [stream, moveTo, setBuf, hk, unreadOf, flatMap_written_update _ hq,
      storedOf_update _ (ho .acq (by decide)), Buffer.unread_flip]

/-- A put stores the next value of the counter. -/
theorem Inv.put (h : Inv addrs S s) (hd : addrs.Nodup) {b : A}
    (hk : s.stage .acq = .working b) (hf : (s.heap b).full = false) :
    Inv addrs S { s.setBuf b ((s.heap b).put s.ctr) with ctr := s.ctr + 1 } := by
  obtain ⟨n, hn, hc⟩ := h.stored
  obtain ⟨hm, hq, ho⟩ := h.apart hd (t := .acq) (b := b) (by simp [hk, Stage.held])
  have hv := (h.bufs b hm).2
  refine ⟨h.placed, h.bufs_setBuf b (Buffer.capacity_put _ _) (hv.put _ hf), ⟨n + 1, ?_, ?_⟩,
    h.awaited, h.correct⟩
  · rw [counters_succ, ← hn, ← hc]
    simp [stream, setBuf, hk, storedOf, flatMap_written_update _ hq,
      unreadOf_update _ (ho .proc (by decide)), Buffer.written_put hv _ hf]
  · simp [hc]

/-- A get delivers the value the consumer expects. -/
theorem Inv.get (h : Inv addrs S s) (hd : addrs.Nodup) {b : A} {v : UInt32}
    {buf : Buffer UInt32} (hk : s.stage .proc = .working b) (hf : (s.heap b).full = false)
    (hg : (s.heap b).get = some (v, buf)) : Inv addrs S ((s.setBuf b buf).check v) := by
  obtain ⟨n, hn, hc⟩ := h.stored
  obtain ⟨hm, hq, ho⟩ := h.apart hd (t := .proc) (b := b) (by simp [hk, Stage.held])
  obtain ⟨v', buf', hg', hu, hv', hcap⟩ := Buffer.get_spec (h.bufs b hm).2 hf
  rw [hg] at hg'
  cases hg'
  have hs : ((s.setBuf b buf).check v).stream = counters n := by
    rw [← hn]
    simp [stream, check, setBuf, hk, unreadOf, hu, flatMap_written_update _ hq,
      storedOf_update _ (ho .acq (by decide))]
  -- what has been read is an initial part of the stream, so its last value is known
  have hx : s.seen ++ [v] = counters (s.seen ++ [v]).length := by
    rw [stream, List.append_assoc, List.append_assoc] at hs
    exact eq_counters_of_prefix hs
  have hv : v = s.expected := by
    rw [List.length_append, List.length_singleton, counters_succ] at hx
    rw [h.awaited]
    exact List.singleton_inj.mp (List.append_inj_right' hx rfl)
  refine ⟨h.placed, h.bufs_setBuf b hcap hv', ⟨n, hs, hc⟩, ?_, ?_⟩
  · simp [check, setBuf, hv, h.awaited]
  · simp [check, setBuf, hv, h.correct]

/-- No step of the threads loses, doubles or reorders a buffer or a value. -/
theorem Inv.step {s' : BufLine A} (h : Inv addrs S s) (hd : addrs.Nodup) (hs : Step s s') :
    Inv addrs S s' := by
  cases hs with
  | take hk hl => exact h.take hk hl
  | clear hk => exact h.clear hd hk
  | flip hk => exact h.flip hd hk
  | put hk hf => exact h.put hd hk hf
  | get hk hf hg => exact h.get hd hk hf hg
  | close hk hf => exact h.close hk hf
  | give hk => exact h.give hk

/-- All buffers in the pool, and nothing stored yet. -/
theorem inv_start {heap : A → Buffer UInt32}
    (hb : ∀ a ∈ addrs, (heap a).capacity = S ∧ (heap a).Valid) :
    Inv addrs S ⟨addrs, [], heap, fun _ ↦ .idle, 0, 0, 0, []⟩ :=
  ⟨fun _ ↦ by simp [copies, Stage.held], hb, ⟨0, rfl, rfl⟩, rfl, rfl⟩

/-- What is read is what the counter gave, in order. -/
theorem Inv.seen_eq (h : Inv addrs S s) : s.seen = counters s.seen.length := by
  obtain ⟨n, hn, -⟩ := h.stored
  rw [stream, List.append_assoc, List.append_assoc] at hn
  exact eq_counters_of_prefix hn

/-- Lines and hands together hold each buffer once. -/
theorem Inv.perm (h : Inv addrs S s) :
    (s.pool ++ s.que ++ (s.stage .acq).held ++ (s.stage .proc).held).Perm addrs := by
  rw [List.perm_iff_count]
  intro a
  simp only [List.count_append]
  exact h.placed a

end BufLine
end CtrlrFx.Os
