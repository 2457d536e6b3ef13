import CtrlrFx.Os.BufLine
import CtrlrFx.Os.BufPool

/-!
# The acquisition pipeline

`test/os/PoolTest/PoolTest.cpp`: a pool of buffers and a message queue of the same
capacity between two threads. Each queue operation is the atomic steps of its thread, and
one item of a buffer at a time is stored or read. Both threads run for good: nothing sets
`quit_`. Every step of this system is a step of the buffers in circulation, or none.
-/

namespace CtrlrFx.Os
open Base Data

namespace MsgQueue

variable {T Tid : Type}

/-- How one step of a thread changes its place and the unread values. -/
inductive Moves : Pc T → List T → Pc T → List T → Prop where
  | slot {m : Mode} {v : T} {q : List T} : Moves (.putWait m v) q (.putLocked v) q
  | store {v : T} {q : List T} : Moves (.putLocked v) q .putPost (q ++ [v])
  | posted {q : List T} : Moves .putPost q .idle q
  | data {m : Mode} {q : List T} : Moves (.getWait m) q .getLocked q
  | fetch {v : T} {q : List T} : Moves .getLocked (v :: q) (.getPost v) q
  | freed {v : T} {q : List T} : Moves (.getPost v) q .idle q
  | peekTest {p : Pc T} {q : List T} : Moves .peekTest q p q
  | peeked {p : Pc T} {q : List T} : Moves .peekLocked q p q

theorem Moves.of_putWait {m : Mode} {v : T} {c c' : List T} {p : Pc T}
    (h : Moves (.putWait m v) c p c') : p = .putLocked v ∧ c' = c := by
  cases h
  exact ⟨rfl, rfl⟩

theorem Moves.of_putLocked {v : T} {c c' : List T} {p : Pc T}
    (h : Moves (.putLocked v) c p c') : p = .putPost ∧ c' = c ++ [v] := by
  cases h
  exact ⟨rfl, rfl⟩

theorem Moves.of_putPost {c c' : List T} {p : Pc T} (h : Moves .putPost c p c') :
    p = .idle ∧ c' = c := by
  cases h
  exact ⟨rfl, rfl⟩

theorem Moves.of_getWait {m : Mode} {c c' : List T} {p : Pc T}
    (h : Moves (.getWait m) c p c') : p = .getLocked ∧ c' = c := by
  cases h
  exact ⟨rfl, rfl⟩

theorem Moves.of_getLocked {c c' : List T} {p : Pc T} (h : Moves .getLocked c p c') :
    ∃ v, p = .getPost v ∧ c = v :: c' := by
  cases h
  exact ⟨_, rfl, rfl⟩

theorem Moves.of_getPost {v : T} {c c' : List T} {p : Pc T} (h : Moves (.getPost v) c p c') :
    p = .idle ∧ c' = c := by
  cases h
  exact ⟨rfl, rfl⟩

variable [DecidableEq Tid]

/-- A call of an idle thread touches neither the values nor the other threads. -/
theorem Sys.call_idle {s s' : Sys T Tid} {t : Tid} {op : Op T} (h : s.call t op = some s') :
    s'.q = s.q ∧ s.pc t = .idle ∧ ∀ u, u ≠ t → s'.pc u = s.pc u := by
  obtain ⟨hp, p, rfl, -, -⟩ := call_eq h
  exact ⟨rfl, hp, fun u hu ↦ Function.update_of_ne hu _ _⟩

/-- A step of one thread moves that thread only. -/
theorem Sys.go_moves [Fintype Tid] {s s' : Sys T Tid} {t : Tid} (h : Inv s)
    (hg : s.go t = some s') :
    Moves (s.pc t) s.q.contents (s'.pc t) s'.q.contents ∧ (∀ u, u ≠ t → s'.pc u = s.pc u) ∧
      s'.q.capacity = s.q.capacity := by
  unfold Sys.go at hg
  cases hp : s.pc t with
  | idle => simp [hp] at hg
  | putWait m v =>
    simp only [hp, Option.ite_none_left_eq_some, Option.some.injEq] at hg
    obtain ⟨-, rfl⟩ := hg
    refine ⟨?_, fun u hu ↦ Function.update_of_ne hu _ _, rfl⟩
    simp only [moveTo, Function.update_self]
    exact .slot
  | putLocked v =>
    simp only [hp, Option.some.injEq] at hg
    subst hg
    refine ⟨?_, fun u hu ↦ Function.update_of_ne hu _ _, capacity_doPut _ _⟩
    simp only [moveTo, Function.update_self, contents_doPut v h.wf (h.room hp)]
    exact .store
  | putPost =>
    simp only [hp, Option.some.injEq] at hg
    subst hg
    refine ⟨?_, fun u hu ↦ Function.update_of_ne hu _ _, rfl⟩
    simp only [moveTo, Function.update_self]
    exact .posted
  | getWait m =>
    simp only [hp, Option.ite_none_left_eq_some, Option.some.injEq] at hg
    obtain ⟨-, rfl⟩ := hg
    refine ⟨?_, fun u hu ↦ Function.update_of_ne hu _ _, rfl⟩
    simp only [moveTo, Function.update_self]
    exact .data
  | getLocked =>
    simp only [hp] at hg
    obtain ⟨⟨v, q⟩, hd, rfl⟩ := Option.map_eq_some_iff.mp hg
    obtain ⟨v', q', hd', hc, -, hcap, -⟩ := doGet_spec h.wf (h.unread hp)
    rw [hd] at hd'
    cases hd'
    refine ⟨?_, fun u hu ↦ Function.update_of_ne hu _ _, hcap⟩
    simp only [moveTo, Function.update_self, hc]
    exact .fetch
  | getPost v =>
    simp only [hp, Option.some.injEq] at hg
    subst hg
    refine ⟨?_, fun u hu ↦ Function.update_of_ne hu _ _, rfl⟩
    simp only [moveTo, Function.update_self]
    exact .freed
  | peekTest =>
    simp only [hp, Option.some.injEq] at hg
    subst hg
    exact ⟨.peekTest, fun u hu ↦ Function.update_of_ne hu _ _, rfl⟩
  | peekLocked =>
    simp only [hp] at hg
    split at hg
    · obtain ⟨v, -, rfl⟩ := Option.map_eq_some_iff.mp hg
      exact ⟨.peeked, fun u hu ↦ Function.update_of_ne hu _ _, rfl⟩
    · cases hg
      exact ⟨.peeked, fun u hu ↦ Function.update_of_ne hu _ _, rfl⟩

end MsgQueue

/-- Where a thread is in its loop: in `get`, about to clear or flip the buffer it got,
storing or reading its items, or in `put`. -/
inductive Task (A : Type) where
  | getting
  | opening (b : A)
  | working (b : A)
  | putting (b : A)

/-- The two queues, the buffers, the threads with their counters, and what the consumer has
read; `test/os/PoolTest/PoolTest.cpp:35–125`. -/
structure Pipeline (A : Type) where
  pool : MsgQueue.Sys A Thread
  que : MsgQueue.Sys A Thread
  heap : A → Buffer UInt32
  task : Thread → Task A
  ctr : UInt32
  expected : UInt32
  errors : Nat
  seen : List UInt32

namespace Pipeline

variable {A : Type}

/-- The queue a thread gets its buffers from. -/
def source (s : Pipeline A) : Thread → MsgQueue.Sys A Thread
  | .acq => s.pool
  | .proc => s.que

def setSource (s : Pipeline A) : Thread → MsgQueue.Sys A Thread → Pipeline A
  | .acq, q => { s with pool := q }
  | .proc, q => { s with que := q }

/-- The queue a thread puts its buffers into is the one the other gets them from. -/
def target (s : Pipeline A) (t : Thread) : MsgQueue.Sys A Thread := s.source t.other

def setTarget (s : Pipeline A) (t : Thread) (q : MsgQueue.Sys A Thread) : Pipeline A :=
  s.setSource t.other q

/-- Thread `t` moves to `k`. -/
def moveTo (s : Pipeline A) (t : Thread) (k : Task A) : Pipeline A :=
  { s with task := Function.update s.task t k }

/-- A step inside `get`; with its last one the thread has its buffer. -/
def stepGet (s : Pipeline A) (t : Thread) : Option (Pipeline A) :=
  ((s.source t).go t).map fun q ↦
    match (s.source t).pc t with
    | .getPost b => (s.setSource t q).moveTo t (.opening b)
    | _ => s.setSource t q

/-- A step inside `put`; after its last one the thread calls `get` again. -/
def stepPut (s : Pipeline A) (t : Thread) : Option (Pipeline A) :=
  ((s.target t).go t).bind fun q ↦
    match (s.target t).pc t with
    | .putPost => ((s.source t).call t (.get .block)).map fun q' ↦
        ((s.setTarget t q).setSource t q').moveTo t .getting
    | _ => some (s.setTarget t q)

/-- Calls `put` with the buffer in hand. -/
def callPut (s : Pipeline A) (t : Thread) (b : A) : Option (Pipeline A) :=
  ((s.target t).call t (.put .block b)).map fun q ↦ (s.setTarget t q).moveTo t (.putting b)

section Program

variable [DecidableEq A]

def setBuf (s : Pipeline A) (b : A) (buf : Buffer UInt32) : Pipeline A :=
  { s with heap := Function.update s.heap b buf }

/-- The producer clears its buffer, the consumer flips it;
`test/os/PoolTest/PoolTest.cpp:70,106`. -/
def stepOpen (s : Pipeline A) : Thread → A → Pipeline A
  | .acq, b => (s.setBuf b (s.heap b).clear).moveTo .acq (.working b)
  | .proc, b => (s.setBuf b (s.heap b).flip).moveTo .proc (.working b)

/-- The consumer compares the value it read with its own counter;
`test/os/PoolTest/PoolTest.cpp:108–113`. -/
def check (s : Pipeline A) (n : UInt32) : Pipeline A :=
  { s with
    seen := s.seen ++ [n]
    errors := if n ≠ s.expected then s.errors + 1 else s.errors
    expected := if n ≠ s.expected then n + 1 else s.expected + 1 }

/-- One test of the inner loop and, unless the loop ends, one item;
`test/os/PoolTest/PoolTest.cpp:71–74,107–116`. -/
def stepWork (s : Pipeline A) : Thread → A → Option (Pipeline A)
  | .acq, b =>
    if (s.heap b).full then s.callPut .acq b
    else some { s.setBuf b ((s.heap b).put s.ctr) with ctr := s.ctr + 1 }
  | .proc, b =>
    if (s.heap b).full then s.callPut .proc b
    else (s.heap b).get.map fun (n, buf) ↦ (s.setBuf b buf).check n

/-- The next step of thread `t`. -/
def step (s : Pipeline A) (t : Thread) : Option (Pipeline A) :=
  match s.task t with
  | .getting => s.stepGet t
  | .opening b => some (s.stepOpen t b)
  | .working b => s.stepWork t b
  | .putting _ => s.stepPut t

/-- A queue that no thread has used, with its history if it holds values already. -/
def atRest (q : MsgQueue A) (pc : Thread → MsgQueue.Pc A) : MsgQueue.Sys A Thread :=
  { q := q, pc := pc, events := q.contents.map Fifo.Event.enq }

/-- The pool `p` and a queue on the cells `cells`, with both threads in their first `get`. -/
def start (p : BufPool A UInt32) (cells : List A) : Pipeline A where
  pool := atRest p.queue fun
    | .acq => .getWait .block
    | .proc => .idle
  que := atRest (MsgQueue.unset.resize cells) fun
    | .acq => .idle
    | .proc => .getWait .block
  heap := p.heap
  task _ := .getting
  ctr := 0
  expected := 0
  errors := 0
  seen := []

/-- The program on a pool of buffers at `addrs`, of `S` items each, whose memory was
allocated with any contents; `test/os/PoolTest/PoolTest.cpp:35–44`. -/
def machine (addrs : List A) (S : Nat) : Machine (Pipeline A) Thread where
  init s := ∃ (heap : A → Buffer UInt32) (cells cells' : List A) (blocks : List (List UInt32))
    (p : BufPool A UInt32), cells.length = addrs.length ∧ cells'.length = addrs.length ∧
      blocks.length = addrs.length ∧ (∀ m ∈ blocks, m.length = S) ∧
      BufPool.create heap cells addrs blocks = some p ∧ s = start p cells'
  step := step

end Program

/-! ### The buffers in circulation -/

/-- What a thread does with its buffer. From the last step of `get` to its return, and from
the call of `put` to the store, the buffer is in the thread's hand. -/
def stage (s : Pipeline A) (t : Thread) : Stage A :=
  match s.task t with
  | .getting =>
    match (s.source t).pc t with
    | .getPost b => .taken b
    | _ => .idle
  | .opening b => .taken b
  | .working b => .working b
  | .putting b =>
    match (s.target t).pc t with
    | .putPost => .idle
    | _ => .handing b

/-- The pipeline without its semaphores. -/
def abs (s : Pipeline A) : BufLine A where
  pool := s.pool.q.contents
  que := s.que.q.contents
  heap := s.heap
  stage := s.stage
  ctr := s.ctr
  expected := s.expected
  errors := s.errors
  seen := s.seen

/-- A thread is inside a queue only in the call its loop has reached. -/
def Linked (s : Pipeline A) (t : Thread) : Prop :=
  match s.task t with
  | .getting =>
    (s.target t).pc t = .idle ∧ ((s.source t).pc t = .getWait .block ∨
      (s.source t).pc t = .getLocked ∨ ∃ b, (s.source t).pc t = .getPost b)
  | .opening _ | .working _ => (s.target t).pc t = .idle ∧ (s.source t).pc t = .idle
  | .putting b =>
    (s.source t).pc t = .idle ∧ ((s.target t).pc t = .putWait .block b ∨
      (s.target t).pc t = .putLocked b ∨ (s.target t).pc t = .putPost)

/-- A state in which nothing of thread `u` has changed. -/
structure Same (s s' : Pipeline A) (u : Thread) : Prop where
  task : s'.task u = s.task u
  source : (s'.source u).pc u = (s.source u).pc u
  target : (s'.target u).pc u = (s.target u).pc u

theorem Same.stage {s s' : Pipeline A} {u : Thread} (h : Same s s' u) :
    s'.stage u = s.stage u := by
  simp only [Pipeline.stage, h.task, h.source, h.target]

theorem Same.linked {s s' : Pipeline A} {u : Thread} (h : Same s s' u) (hl : s.Linked u) :
    s'.Linked u := by
  simp only [Linked, h.task, h.source, h.target]
  exact hl

theorem Same.trans {s s' s'' : Pipeline A} {u : Thread} (h : Same s s' u)
    (h' : Same s' s'' u) : Same s s'' u :=
  ⟨h'.task.trans h.task, h'.source.trans h.source, h'.target.trans h.target⟩

@[simp] theorem source_setSource (s : Pipeline A) (t : Thread) (q : MsgQueue.Sys A Thread) :
    (s.setSource t q).source t = q := by
  cases t <;> rfl

@[simp] theorem target_setSource (s : Pipeline A) (t : Thread) (q : MsgQueue.Sys A Thread) :
    (s.setSource t q).target t = s.target t := by
  cases t <;> rfl

@[simp] theorem source_setTarget (s : Pipeline A) (t : Thread) (q : MsgQueue.Sys A Thread) :
    (s.setTarget t q).source t = s.source t := by
  cases t <;> rfl

@[simp] theorem target_setTarget (s : Pipeline A) (t : Thread) (q : MsgQueue.Sys A Thread) :
    (s.setTarget t q).target t = q := by
  cases t <;> rfl

@[simp] theorem task_setSource (s : Pipeline A) (t : Thread) (q : MsgQueue.Sys A Thread) :
    (s.setSource t q).task = s.task := by
  cases t <;> rfl

@[simp] theorem task_setTarget (s : Pipeline A) (t : Thread) (q : MsgQueue.Sys A Thread) :
    (s.setTarget t q).task = s.task := by
  cases t <;> rfl

@[simp] theorem source_moveTo (s : Pipeline A) (t u : Thread) (k : Task A) :
    (s.moveTo t k).source u = s.source u := by
  cases u <;> rfl

@[simp] theorem target_moveTo (s : Pipeline A) (t u : Thread) (k : Task A) :
    (s.moveTo t k).target u = s.target u := by
  cases u <;> rfl

@[simp] theorem task_moveTo (s : Pipeline A) (t : Thread) (k : Task A) :
    (s.moveTo t k).task t = k := Function.update_self _ _ _

/-- A queue operation of `t` does not move the other thread. -/
theorem same_setSource {s : Pipeline A} {i t u : Thread} {q : MsgQueue.Sys A Thread}
    (hq : ∀ v, v ≠ t → q.pc v = (s.source i).pc v) (hu : u ≠ t) :
    Same s (s.setSource i q) u := by
  have h := hq u hu
  refine ⟨by rw [task_setSource], ?_, ?_⟩
  · cases i <;> cases u
    · exact h
    · rfl
    · rfl
    · exact h
  · cases i <;> cases u
    · rfl
    · exact h
    · exact h
    · rfl

theorem same_moveTo {s : Pipeline A} {t u : Thread} (k : Task A) (hu : u ≠ t) :
    Same s (s.moveTo t k) u :=
  ⟨Function.update_of_ne hu _ _, by cases u <;> rfl, by cases u <;> rfl⟩

/-- If only `t` changed, only the stage of `t` did. -/
theorem stage_eq_update {s s' : Pipeline A} {t : Thread} (h : ∀ u, u ≠ t → Same s s' u) :
    s'.stage = Function.update s.stage t (s'.stage t) := by
  funext u
  by_cases hu : u = t
  · rw [hu, Function.update_self]
  · rw [Function.update_of_ne hu, (h u hu).stage]

theorem abs_setSource {s : Pipeline A} {i t : Thread} {q : MsgQueue.Sys A Thread}
    (hq : ∀ v, v ≠ t → q.pc v = (s.source i).pc v) :
    (s.setSource i q).abs =
      (s.abs.setSource i q.q.contents).moveTo t ((s.setSource i q).stage t) := by
  have hs := stage_eq_update fun u hu ↦ same_setSource hq hu
  unfold abs
  rw [hs]
  cases i <;> simp only [setSource, BufLine.setSource, BufLine.moveTo, Function.update_self]

theorem abs_moveTo (s : Pipeline A) (t : Thread) (k : Task A) :
    (s.moveTo t k).abs = s.abs.moveTo t ((s.moveTo t k).stage t) := by
  have hs : (s.moveTo t k).stage = _ := stage_eq_update fun u hu ↦ same_moveTo k hu
  unfold abs
  rw [hs]
  simp only [moveTo, BufLine.moveTo, Function.update_self]

theorem source_abs (s : Pipeline A) (t : Thread) : s.abs.source t = (s.source t).q.contents := by
  cases t <;> rfl

/-- A queue of `N` cells that keeps its books. -/
def Sound (N : Nat) (q : MsgQueue.Sys A Thread) : Prop := MsgQueue.Inv q ∧ q.q.capacity = N

/-- Both queues are sound, and the threads are inside them where their loops are. -/
structure Queues (N : Nat) (s : Pipeline A) : Prop where
  sound : ∀ i, Sound N (s.source i)
  linked : ∀ t, s.Linked t

theorem sound_setSource {N : Nat} {s : Pipeline A} (h : ∀ i, Sound N (s.source i))
    (i : Thread) {q : MsgQueue.Sys A Thread} (hq : Sound N q) (j : Thread) :
    Sound N ((s.setSource i q).source j) := by
  have hj := h j
  cases i <;> cases j <;> assumption

theorem sound_moveTo {N : Nat} {s : Pipeline A} (h : ∀ i, Sound N (s.source i)) (t : Thread)
    (k : Task A) (j : Thread) : Sound N ((s.moveTo t k).source j) := by
  have hj := h j
  cases j <;> exact hj

/-- A thread that changed itself, within sound queues, has to be linked anew. -/
theorem Queues.update {N : Nat} {s s' : Pipeline A} {t : Thread} (h : Queues N s)
    (hs : ∀ i, Sound N (s'.source i)) (hu : ∀ u, u ≠ t → Same s s' u) (hl : s'.Linked t) :
    Queues N s' := by
  refine ⟨hs, fun u ↦ ?_⟩
  by_cases hut : u = t
  · rwa [hut]
  · exact (hu u hut).linked (h.linked u)

/-- Buffers and counters do not matter to the queues. -/
theorem Queues.congr {N : Nat} {s s' : Pipeline A} (h : Queues N s) (hp : s'.pool = s.pool)
    (hq : s'.que = s.que) (ht : s'.task = s.task) : Queues N s' := by
  have hs : s'.source = s.source := by
    funext i
    cases i
    · exact hp
    · exact hq
  have hu : ∀ u, Same s s' u := fun u ↦ ⟨by rw [ht], by rw [hs], by rw [target, hs, target]⟩
  exact ⟨by rw [hs]; exact h.sound, fun u ↦ (hu u).linked (h.linked u)⟩

/-- A step inside a queue keeps it sound. -/
theorem Sound.go {N : Nat} {q q' : MsgQueue.Sys A Thread} {t : Thread} (h : Sound N q)
    (hg : q.go t = some q') : Sound N q' :=
  ⟨h.1.go hg, (MsgQueue.Sys.go_moves h.1 hg).2.2.trans h.2⟩

theorem Sound.call {N : Nat} {q q' : MsgQueue.Sys A Thread} {t : Thread} {op : MsgQueue.Op A}
    (h : Sound N q) (hg : q.call t op = some q') : Sound N q' := by
  have hs : q.step (.call t op) = some q' := hg
  refine ⟨h.1.step hs, ?_⟩
  rw [(MsgQueue.Sys.call_idle hg).1]
  exact h.2

variable [DecidableEq A]

/-- One step of the program is one step of the buffers in circulation, or none. -/
def Follows (N : Nat) (s s' : Pipeline A) : Prop :=
  Queues N s' ∧ (s'.abs = s.abs ∨ BufLine.Step s.abs s'.abs)

variable {N : Nat} {s s' : Pipeline A} {t : Thread}

theorem Queues.stepGet (h : Queues N s) (hk : s.task t = .getting)
    (hs : s.stepGet t = some s') : Follows N s s' := by
  obtain ⟨q, hg, rfl⟩ := Option.map_eq_some_iff.mp hs
  obtain ⟨hm, ho, -⟩ := MsgQueue.Sys.go_moves (h.sound t).1 hg
  have hq := sound_setSource h.sound t ((h.sound t).go hg)
  have hl := h.linked t
  simp only [Linked, hk] at hl
  obtain ⟨hi, hp | hp | ⟨b, hp⟩⟩ := hl
  · rw [hp] at hm
    obtain ⟨hp', hc⟩ := hm.of_getWait
    simp only [hp]
    refine ⟨h.update hq (fun u hu ↦ same_setSource ho hu) ?_, .inl ?_⟩
    · simp [Linked, hk, hi, hp']
    · rw [abs_setSource ho, hc, BufLine.setSource_self (source_abs s t), BufLine.moveTo_self]
      simp [abs, stage, hk, hp, hp']
  · rw [hp] at hm
    obtain ⟨b, hp', hc⟩ := hm.of_getLocked
    simp only [hp]
    refine ⟨h.update hq (fun u hu ↦ same_setSource ho hu) ?_, .inr ?_⟩
    · simp [Linked, hk, hi, hp']
    · have hst : (s.setSource t q).stage t = .taken b := by simp [stage, hk, hp']
      rw [abs_setSource ho, hst]
      exact .take (by simp [abs, stage, hk, hp]) (by rw [source_abs, hc])
  · rw [hp] at hm
    obtain ⟨hp', hc⟩ := hm.of_getPost
    simp only [hp]
    refine ⟨h.update (sound_moveTo hq t _) (fun u hu ↦ (same_setSource ho hu).trans
      (same_moveTo _ hu)) ?_, .inl ?_⟩
    · simp [Linked, hi, hp']
    · have hst : ((s.setSource t q).moveTo t (.opening b)).stage t = .taken b := by
        simp [stage]
      rw [abs_moveTo, hst, abs_setSource ho, hc, BufLine.setSource_self (source_abs s t),
        BufLine.moveTo_moveTo, BufLine.moveTo_self]
      simp [abs, stage, hk, hp]

theorem Queues.stepPut (h : Queues N s) {b : A} (hk : s.task t = .putting b)
    (hs : s.stepPut t = some s') : Follows N s s' := by
  obtain ⟨q, hg, hs⟩ := Option.bind_eq_some_iff.mp hs
  obtain ⟨hm, ho, -⟩ := MsgQueue.Sys.go_moves (h.sound t.other).1 hg
  have hq := sound_setSource h.sound t.other ((h.sound t.other).go hg)
  have hl := h.linked t
  simp only [Linked, hk] at hl
  obtain ⟨hi, hp | hp | hp⟩ := hl
  · simp only [hp, Option.some.injEq] at hs
    subst hs
    change MsgQueue.Moves ((s.target t).pc t) _ _ _ at hm
    rw [hp] at hm
    obtain ⟨hp', hc⟩ := hm.of_putWait
    refine ⟨h.update hq (fun u hu ↦ same_setSource ho hu) ?_, .inl ?_⟩
    · simp [Linked, hk, hi, hp']
    · rw [setTarget, abs_setSource ho, hc, BufLine.setSource_self (source_abs s t.other),
        BufLine.moveTo_self]
      change s.stage t = (s.setTarget t q).stage t
      simp [stage, hk, hp, hp']
  · simp only [hp, Option.some.injEq] at hs
    subst hs
    change MsgQueue.Moves ((s.target t).pc t) _ _ _ at hm
    rw [hp] at hm
    obtain ⟨hp', hc⟩ := hm.of_putLocked
    refine ⟨h.update hq (fun u hu ↦ same_setSource ho hu) ?_, .inr ?_⟩
    · simp [Linked, hk, hi, hp']
    · have hst : (s.setTarget t q).stage t = .idle := by simp [stage, hk, hp']
      rw [setTarget] at hst ⊢
      rw [abs_setSource ho, hst, hc, ← source_abs]
      exact .give (by simp [abs, stage, hk, hp])
  · rw [hp] at hs
    obtain ⟨q', hc', rfl⟩ := Option.map_eq_some_iff.mp hs
    change MsgQueue.Moves ((s.target t).pc t) _ _ _ at hm
    rw [hp] at hm
    obtain ⟨hp', hc⟩ := hm.of_putPost
    -- between the post and the next call only the place of the thread changes
    have hq' := sound_setSource hq t ((h.sound t).call hc')
    obtain ⟨hcq, -, hco⟩ := MsgQueue.Sys.call_idle hc'
    rw [← source_setTarget s t q] at hcq hco
    rw [MsgQueue.Sys.call_get _ hi, Option.some.injEq] at hc'
    refine ⟨h.update (sound_moveTo hq' t _) (fun u hu ↦ ((same_setSource ho hu).trans
      (same_setSource hco hu)).trans (same_moveTo _ hu)) ?_, .inl ?_⟩
    · simp [Linked, hp', ← hc', MsgQueue.Sys.moveTo]
    · have hst : (((s.setTarget t q).setSource t q').moveTo t .getting).stage t = .idle := by
        simp [stage, ← hc', MsgQueue.Sys.moveTo]
      rw [abs_moveTo, hst, abs_setSource hco, hcq, BufLine.setSource_self (source_abs _ t),
        BufLine.moveTo_moveTo, setTarget, abs_setSource ho, hc,
        BufLine.setSource_self (source_abs s t.other), BufLine.moveTo_moveTo,
        BufLine.moveTo_self]
      simp [abs, stage, hk, hp]

/-- The call of `put` takes a thread from its full or drained buffer into the queue. -/
theorem Queues.callPut (h : Queues N s) {b : A} (hk : s.task t = .working b)
    (hf : (s.heap b).full = true) (hs : s.callPut t b = some s') : Follows N s s' := by
  obtain ⟨q, hg, rfl⟩ := Option.map_eq_some_iff.mp hs
  have hl := h.linked t
  simp only [Linked, hk] at hl
  obtain ⟨hi, hi'⟩ := hl
  have hq := sound_setSource h.sound t.other ((h.sound t.other).call hg)
  obtain ⟨hcq, -, hco⟩ := MsgQueue.Sys.call_idle hg
  rw [MsgQueue.Sys.call_put _ _ hi, Option.some.injEq] at hg
  refine ⟨h.update (sound_moveTo hq t _) (fun u hu ↦ (same_setSource hco hu).trans
    (same_moveTo _ hu)) ?_, .inr ?_⟩
  · simp [Linked, hi', ← hg, MsgQueue.Sys.moveTo]
  · have hst : ((s.setTarget t q).moveTo t (.putting b)).stage t = .handing b := by
      simp [stage, ← hg, MsgQueue.Sys.moveTo]
    have hc : q.q.contents = (s.source t.other).q.contents := by
      rw [hcq]
      rfl
    rw [abs_moveTo, hst, setTarget, abs_setSource hco, hc,
      BufLine.setSource_self (source_abs s t.other), BufLine.moveTo_moveTo]
    exact .close (by simp [abs, stage, hk]) hf

theorem Queues.stepOpen (h : Queues N s) {b : A} (hk : s.task t = .opening b) :
    Follows N s (s.stepOpen t b) := by
  have hl := h.linked t
  simp only [Linked, hk] at hl
  have hf : ∀ buf, BufLine.Step s.abs ((s.abs.setBuf b buf).moveTo t (.working b)) →
      Follows N s ((s.setBuf b buf).moveTo t (.working b)) := by
    intro buf hstep
    have hq : Queues N (s.setBuf b buf) := h.congr rfl rfl rfl
    refine ⟨hq.update (sound_moveTo hq.sound t _) (fun u hu ↦ same_moveTo _ hu) ?_, .inr ?_⟩
    · simp only [Linked, task_moveTo, source_moveTo, target_moveTo]
      cases t <;> exact hl
    · have hst : ((s.setBuf b buf).moveTo t (.working b)).stage t = .working b := by
        simp [stage]
      rw [abs_moveTo, hst]
      exact hstep
  have hst : s.abs.stage t = .taken b := by simp [abs, stage, hk]
  cases t with
  | acq => exact hf _ (.clear hst)
  | proc => exact hf _ (.flip hst)

theorem Queues.stepWork (h : Queues N s) {b : A} (hk : s.task t = .working b)
    (hs : s.stepWork t b = some s') : Follows N s s' := by
  cases t with
  | acq =>
    simp only [Pipeline.stepWork] at hs
    split at hs
    · next hf => exact h.callPut hk hf hs
    · next hf =>
      cases hs
      refine ⟨h.congr rfl rfl rfl, .inr ?_⟩
      exact BufLine.Step.put (by simp [abs, stage, hk]) (Bool.eq_false_of_not_eq_true hf)
  | proc =>
    simp only [Pipeline.stepWork] at hs
    split at hs
    · next hf => exact h.callPut hk hf hs
    · next hf =>
      obtain ⟨⟨n, buf⟩, hg, rfl⟩ := Option.map_eq_some_iff.mp hs
      refine ⟨h.congr rfl rfl rfl, .inr ?_⟩
      exact BufLine.Step.get (by simp [abs, stage, hk]) (Bool.eq_false_of_not_eq_true hf) hg

/-- Every step of the program follows the buffers in circulation. -/
theorem Queues.step (h : Queues N s) (hs : s.step t = some s') : Follows N s s' := by
  unfold Pipeline.step at hs
  split at hs
  · next hk => exact h.stepGet hk hs
  · next hk =>
    cases hs
    exact h.stepOpen hk
  · next hk => exact h.stepWork hk hs
  · next hk => exact h.stepPut hk hs

/-! ### Whole runs -/

omit [DecidableEq A] in
theorem sound_atRest {q : MsgQueue A} {pc : Thread → MsgQueue.Pc A} (h : q.Quiet)
    (hp : ∀ t, MsgQueue.slotFlight (pc t) = 0 ∧ MsgQueue.dataFlight (pc t) = 0) :
    Sound q.capacity (atRest q pc) := by
  have hs : total MsgQueue.slotFlight pc = 0 :=
    (total_eq_zero_iff _ _).mpr fun t ↦ (hp t).1
  have hd : total MsgQueue.dataFlight pc = 0 :=
    (total_eq_zero_iff _ _).mpr fun t ↦ (hp t).2
  have hl := MsgQueue.length_contents h.wf
  refine ⟨⟨h.wf, Fifo.Run.of_length_le (by rw [hl]; exact h.wf.sz_le), ?_, ?_⟩, rfl⟩
  · change q.sz + q.slotSem + total MsgQueue.slotFlight pc = q.capacity
    rw [hs, Nat.add_zero, h.slots]
  · change q.dataSem + total MsgQueue.dataFlight pc = q.sz
    rw [hd, Nat.add_zero, h.datas]

omit [DecidableEq A] in
theorem queues_start {p : BufPool A UInt32} {cells : List A} (h : p.queue.Quiet)
    (hc : cells.length = p.queue.capacity) : Queues p.queue.capacity (start p cells) := by
  have hq := MsgQueue.quiet_resize (MsgQueue.unset : MsgQueue A) cells
  have hcap : (MsgQueue.unset.resize cells).capacity = p.queue.capacity :=
    (MsgQueue.capacity_resize _ _).trans hc
  refine ⟨fun i ↦ ?_, fun u ↦ ?_⟩
  · cases i with
    | acq => exact sound_atRest h fun t ↦ by cases t <;> exact ⟨rfl, rfl⟩
    | proc =>
      rw [← hcap]
      exact sound_atRest hq fun t ↦ by cases t <;> exact ⟨rfl, rfl⟩
  · cases u <;> exact ⟨rfl, .inl rfl⟩

omit [DecidableEq A] in
theorem abs_start (p : BufPool A UInt32) (cells : List A) :
    (start p cells).abs = ⟨p.queue.contents, [], p.heap, fun _ ↦ .idle, 0, 0, 0, []⟩ := by
  have hs : (start p cells).stage = fun _ ↦ .idle := by
    funext u
    cases u <;> rfl
  unfold abs
  rw [hs]
  simp only [start, atRest, MsgQueue.contents_resize]

/-- In every reachable state the queues are sound and the buffers circulate in order. -/
theorem circulates {addrs : List A} {S : Nat} (hn : addrs.Nodup)
    (h : (machine addrs S).Reachable s) :
    Queues addrs.length s ∧ BufLine.Inv addrs S s.abs := by
  refine h.invariant (I := fun s ↦ Queues addrs.length s ∧ BufLine.Inv addrs S s.abs) ?_ ?_
  · rintro _ ⟨heap, cells, cells', blocks, p, hc, hc', hb, hS, hp, rfl⟩
    obtain ⟨p', hp', hq, hpc, hcap, hbufs⟩ := BufPool.create_spec heap hc hb hS
    rw [hp] at hp'
    cases hp'
    rw [abs_start, hpc]
    have hqs := queues_start hq (hc'.trans hcap.symm)
    rw [hcap] at hqs
    exact ⟨hqs, BufLine.inv_start hbufs⟩
  · rintro s t s' ⟨hq, hi⟩ hs
    obtain ⟨hq', he | he⟩ := hq.step hs
    · exact ⟨hq', he ▸ hi⟩
    · exact ⟨hq', hi.step hn he⟩

omit [DecidableEq A] in
theorem total_thread {β : Type} (w : β → Nat) (f : Thread → β) :
    total w f = w (f .acq) + w (f .proc) := by
  unfold total
  rfl

omit [DecidableEq A] in
/-- A thread that carries a slot token, or waits for one, has a buffer in hand. -/
theorem flight_le_held (h : s.Linked t) (i : Thread) :
    MsgQueue.slotFlight ((s.source i).pc t) ≤ (s.stage t).held.length := by
  have hi : s.source i = s.source t ∨ s.source i = s.target t := by
    cases i <;> cases t <;> first | exact .inl rfl | exact .inr rfl
  unfold Linked at h
  unfold stage
  split at h
  · next hk =>
    obtain ⟨h1, h2 | h2 | ⟨b, h2⟩⟩ := h <;> obtain hi | hi := hi <;>
      simp [hi, h1, h2, MsgQueue.slotFlight, Stage.held]
  · next hk =>
    obtain hi | hi := hi <;> simp [hi, h.1, h.2, MsgQueue.slotFlight, Stage.held]
  · next hk =>
    obtain hi | hi := hi <;> simp [hi, h.1, h.2, MsgQueue.slotFlight, Stage.held]
  · next hk =>
    obtain ⟨h1, h2 | h2 | h2⟩ := h <;> obtain hi | hi := hi <;>
      simp [hi, h1, h2, MsgQueue.slotFlight, Stage.held]

/-- Everything in both queues and in the hands of both threads. -/
def buffers (s : Pipeline A) : List A :=
  s.pool.q.contents ++ s.que.q.contents ++ (s.stage .acq).held ++ (s.stage .proc).held

/-- What the pipeline promises in a state. -/
structure Intact (addrs : List A) (s : Pipeline A) : Prop where
  /-- Queues and hands hold just the buffers the pool was made of. -/
  accounted : s.buffers.Perm addrs
  /-- No buffer is in two hands, or twice in the queues, or both. -/
  exclusive : s.buffers.Nodup
  number : s.pool.q.sz + s.que.q.sz + (s.stage .acq).held.length +
    (s.stage .proc).held.length = addrs.length
  /-- A put in progress has a free cell, -/
  room : ∀ t b, s.stage t = .handing b → (s.target t).q.sz < (s.target t).q.capacity
  /-- and does not wait for it. -/
  passes : ∀ t m b, (s.target t).pc t = .putWait m b → 0 < (s.target t).q.slotSem
  /-- The consumer has read the first values of the counter, in order, -/
  in_order : s.seen = BufLine.counters s.seen.length
  /-- and never met one it did not expect. -/
  no_errors : s.errors = 0

theorem intact_of {addrs : List A} {S : Nat} (hn : addrs.Nodup) (hq : Queues addrs.length s)
    (hi : BufLine.Inv addrs S s.abs) : Intact addrs s := by
  have hp : s.buffers.Perm addrs := hi.perm
  have hnum : s.pool.q.sz + s.que.q.sz + (s.stage .acq).held.length +
      (s.stage .proc).held.length = addrs.length := by
    have hl := hp.length_eq
    have h1 := MsgQueue.length_contents (hq.sound .acq).1.wf
    have h2 := MsgQueue.length_contents (hq.sound .proc).1.wf
    change s.pool.q.contents.length = s.pool.q.sz at h1
    change s.que.q.contents.length = s.que.q.sz at h2
    simp only [buffers, List.length_append, h1, h2] at hl
    exact hl
  have hsz : ∀ t, (s.target t).q.sz + (s.stage .acq).held.length +
      (s.stage .proc).held.length ≤ addrs.length := by
    intro t
    cases t
    · change s.que.q.sz + _ + _ ≤ _
      omega
    · change s.pool.q.sz + _ + _ ≤ _
      omega
  refine ⟨hp, hp.nodup_iff.mpr hn, hnum, fun t b ht ↦ ?_, fun t m b ht ↦ ?_, hi.seen_eq,
    hi.correct⟩
  · have hb : (s.stage t).held.length = 1 := by rw [ht]; rfl
    have h1 := hsz t
    have h2 : (s.target t).q.capacity = addrs.length := (hq.sound t.other).2
    cases t <;> omega
  · have hslots := (hq.sound t.other).1.slots
    have hcap := (hq.sound t.other).2
    change (s.target t).q.sz + (s.target t).q.slotSem + total _ (s.target t).pc = _ at hslots
    rw [total_thread, hcap] at hslots
    have ha := flight_le_held (hq.linked .acq) t.other
    have hr := flight_le_held (hq.linked .proc) t.other
    change MsgQueue.slotFlight ((s.target t).pc .acq) ≤ _ at ha
    change MsgQueue.slotFlight ((s.target t).pc .proc) ≤ _ at hr
    have hz : MsgQueue.slotFlight ((s.target t).pc t) = 0 := by rw [ht]; rfl
    have hb : 0 < (s.stage t).held.length := by
      have hl := hq.linked t
      unfold Linked at hl
      split at hl
      · rw [ht] at hl
        cases hl.1
      · rw [ht] at hl
        cases hl.1
      · rw [ht] at hl
        cases hl.1
      · next b' hk =>
        simp [stage, hk, ht, Stage.held]
    have h1 := hsz t
    cases t <;> omega

/-- Under every interleaving of the two threads each buffer is in one place, no put finds
its queue full, and the consumer reads the values of the counter in order. -/
theorem pipeline_intact {addrs : List A} {S : Nat} (hn : addrs.Nodup)
    (h : (machine addrs S).Reachable s) : Intact addrs s := by
  obtain ⟨hq, hi⟩ := circulates hn h
  exact intact_of hn hq hi

/-- Two buffers of two items: the consumer has read the first while the producer waits in
`put` with the second. -/
theorem pipeline_intact_overlap :
    ∃ s₀ s : Pipeline Nat, (machine [0, 1] 2).init s₀ ∧
      (machine [0, 1] 2).run s₀ (List.replicate 17 .acq ++ List.replicate 6 .proc) = some s ∧
      s.seen = [0, 1] ∧ s.que.pc .acq = .putWait .block 1 ∧ Intact [0, 1] s := by
  have hrun : ((BufPool.create (fun _ ↦ .empty) [7, 7] [0, 1] [[5, 5], [6, 6]]).bind fun p ↦
      (machine [0, 1] 2).run (start p [7, 7])
        (List.replicate 17 .acq ++ List.replicate 6 .proc)).map
      (fun s ↦ (s.seen, s.que.pc .acq)) = some ([0, 1], .putWait .block 1) := by
    decide +kernel
  obtain ⟨s, hs, he⟩ := Option.map_eq_some_iff.mp hrun
  obtain ⟨p, hp, hs⟩ := Option.bind_eq_some_iff.mp hs
  have h₀ : (machine [0, 1] 2).init (start p [7, 7]) :=
    ⟨_, [7, 7], [7, 7], [[5, 5], [6, 6]], p, rfl, rfl, rfl, by decide, hp, rfl⟩
  exact ⟨_, s, h₀, hs, congrArg Prod.fst he, congrArg Prod.snd he,
    pipeline_intact (by decide) (Machine.Reachable.run (.init h₀) hs)⟩

end Pipeline
end CtrlrFx.Os
