import CtrlrFx.Os.AcqBufQueue
import CtrlrFx.Os.Channels
import Mathlib.Data.Fintype.Option

/-!
# The acquisition demo

`examples/data/AcqDemo/AcqDemo.cpp`: buffers go around between three threads, through the
queues of an `AcqBufQueue`. One fills them with a count, one doubles what is in them, one checks it,
and `main` stops the threads one after another once the user says so.
-/

namespace CtrlrFx.Os.AcqDemo
open Base Data Network

/-- `CommThread`, `ProcessThread` and `AcqThread`. -/
inductive Stage where
  | comm
  | proc
  | acq
  deriving DecidableEq, Repr

instance : Fintype Stage := ⟨{.comm, .proc, .acq}, fun t ↦ by cases t <;> decide⟩

/-- The three threads, and `main`. -/
abbrev Thread := Option Stage

/-- `EMPTY_QUE`, `RAW_QUE` and `FINISHED_QUE`; `examples/data/AcqDemo/AcqDemo.cpp:63–68`. -/
inductive Que where
  | empty
  | raw
  | finished
  deriving DecidableEq, Repr

instance : Fintype Que := ⟨{.empty, .raw, .finished}, fun c ↦ by cases c <;> decide⟩

/-- The index of the queue in the set. -/
def Que.index : Que → Nat
  | empty => 0
  | raw => 1
  | finished => 2

/-- The queue a thread gets its buffers from. -/
def Stage.source : Stage → Que
  | acq => .empty
  | proc => .raw
  | comm => .finished

/-- The queue it puts them into. -/
def Stage.target : Stage → Que
  | acq => .raw
  | proc => .finished
  | comm => .empty

/-- How far `main` is: at the key that ends the demo, about to tell a thread to quit, or waiting for
its end. -/
inductive Main where
  | input
  | quitting (t : Stage)
  | waiting (t : Stage)
  | exited
  deriving DecidableEq, Repr

/-- Once a thread has ended, the next is told to quit. -/
def Main.next : Stage → Main
  | .comm => .quitting .proc
  | .proc => .quitting .acq
  | .acq => .exited

/-- Where a thread is: before its test of `quit_`, in `get`, with the pointer it got, in the loop
over the items of its buffer, in `put`, in the `release` behind its loop, at its end. It has
crashed if it uses a pointer to nothing. -/
inductive Place (A : Type) where
  | top
  | getting
  | got (p : Option A)
  | working (b : A) (i : Nat)
  | putting (b : A)
  | releasing (p : Option A)
  | ending (p : Option A)
  | ended (p : Option A)
  | crashed (p : Option A)
  | main (m : Main)
  deriving DecidableEq, Repr

/-- The buffers, the counters of the two ends, the errors that were reported, which threads are to
quit and which have ended. -/
structure Mem (A : Type) where
  heap : A → Buffer UInt16
  acqCtr : UInt16
  commCtr : UInt16
  errors : Nat
  quit : Stage → Bool
  done : Stage → Bool

variable {A : Type} [DecidableEq A]

namespace Mem

/-- The buffer at `b` is `buf`. -/
def setBuf (m : Mem A) (b : A) (buf : Buffer UInt16) : Mem A :=
  { m with heap := Function.update m.heap b buf }

theorem heap_setBuf (m : Mem A) (b : A) (buf : Buffer UInt16) : (m.setBuf b buf).heap b = buf :=
  Function.update_self ..

/-- What a thread does before its loop over the items;
`examples/data/AcqDemo/AcqDemo.cpp:121,248`. -/
def enter (m : Mem A) (b : A) : Stage → Mem A
  | .acq => m.setBuf b (m.heap b).clear
  | .proc => m
  | .comm => m.setBuf b (m.heap b).flip

/-- One test of the loop over the items and, unless the loop ends, one item. The limit and the
position of a buffer that was doubled stay; `examples/data/AcqDemo/AcqDemo.cpp:124–127,185–186,
250–270`. -/
def loop (m : Mem A) (b : A) (i : Nat) : Stage → Place A × Mem A
  | .acq =>
    if i < (m.heap b).capacity then
      (.working b (i + 1),
        { m.setBuf b { m.heap b with mem := (m.heap b).mem.set i m.acqCtr } with
          acqCtr := m.acqCtr + 1 })
    else (.putting b, m.setBuf b { m.heap b with pos := (m.heap b).capacity })
  | .proc =>
    if i < (m.heap b).size then
      (.working b (i + 1),
        m.setBuf b { m.heap b with mem := (m.heap b).mem.modify i fun v ↦ v * 2 })
    else (.putting b, m)
  | .comm =>
    if (m.heap b).available = 0 then (.putting b, m.setBuf b (m.heap b).clear)
    else
      match (m.heap b).get with
      | none => (.crashed (some b), m)
      | some (v, buf) =>
        if m.commCtr ≠ v then
          (.putting b, { m.setBuf b buf.clear with errors := m.errors + 1 })
        else (.working b (i + 1), { m.setBuf b buf with commCtr := m.commCtr + 2 })

end Mem

/-- Behind the loop all threads but the last release the next one. -/
def leave (p : Option A) : Stage → Place A
  | .comm => .ending p
  | .proc | .acq => .releasing p

/-- The step of a thread with the pointer it got. -/
def begin (t : Stage) (p : Option A) (m : Mem A) : Place A × Mem A :=
  if m.quit t then (leave p t, m)
  else
    match p with
    | none => (.crashed none, m)
    | some b => (.working b 0, m.enter b t)

/-- The code of `main` and of the threads; `examples/data/AcqDemo/AcqDemo.cpp:109–137,175–195,
233–276,294–328`. -/
def code : Program Thread (fun _ : Que ↦ Option A) (Place A) (Mem A) Unit
  | none, .main .input => .work fun _ m ↦ some (.main (.quitting .comm), m)
  | none, .main (.quitting t) => .work fun _ m ↦
      some (.main (.waiting t), { m with quit := Function.update m.quit t true })
  | none, .main (.waiting t) => .work fun _ m ↦
      if m.done t then some (.main (.next t), m) else none
  | some t, .top => .work fun _ m ↦ some (if m.quit t then leave none t else .getting, m)
  | some t, .getting => .get t.source .got
  | some t, .got p => .work fun _ m ↦ some (begin t p m)
  | some t, .working b i => .work fun _ m ↦ some (m.loop b i t)
  | some t, .putting b => .put t.target (some b) .top
  | some t, .releasing p => .put t.target none (.ending p)
  | some t, .ending p => .work fun _ m ↦
      some (.ended p, { m with done := Function.update m.done t true })
  | _, _ => .stop

/-- The demo with atomic queues. -/
abbrev St (A : Type) := State Thread (fun _ : Que ↦ Option A) (Place A) (Mem A)

/-- The demo with the code of the queues, each with `N` slots. -/
abbrev Demo (A : Type) (N : Nat) :=
  Sys (Place A) (Mem A) fun _ : Que ↦ MsgQueue.channel (Option A) Thread N

/-- Every thread before its loop, and `main` at the key. -/
def startPlace : Thread → Place A
  | none => .main .input
  | some _ => .top

def startMem (heap : A → Buffer UInt16) : Mem A :=
  { heap, acqCtr := 0, commCtr := 0, errors := 0, quit := fun _ ↦ false, done := fun _ ↦ false }

/-- The program on a set of queues as `resize` leaves it, with a buffer of `S` items at each of the
addresses; `examples/data/AcqDemo/AcqDemo.cpp:70,286–292`. -/
def machine (addrs : List A) (S : Nat) : Machine (Demo A addrs.length) (Thread × Unit) :=
  Sys.machine code fun s ↦ ∃ (heap : Option A → Buffer UInt16) (cells : Nat → List (Option A))
    (blocks : List (List UInt16)) (q : AcqBufQueue (Option A) UInt16),
      (∀ i < 3, (cells i).length = addrs.length) ∧ blocks.length = addrs.length ∧
        (∀ m ∈ blocks, m.length = S) ∧
        AcqBufQueue.resize heap 3 cells ((addrs.map some).zip blocks) = .done q ∧
        s = { loc := startPlace, chan := fun c ↦ MsgQueue.Sys.rest (q.que c.index),
              mem := startMem fun a ↦ q.heap (some a) }

/-! ### Every buffer is in one place -/

omit [DecidableEq A] in
/-- The pointer a thread has. A thread that has left its loop still has the one it left it with. -/
def Place.held : Place A → Option A
  | got p | releasing p | ending p | ended p | crashed p => p
  | working b _ | putting b => some b
  | top | getting | main _ => none

omit [DecidableEq A] in
theorem held_leave (p : Option A) (t : Stage) : (leave p t).held = p := by
  cases t <;> rfl

theorem held_begin (t : Stage) (p : Option A) (m : Mem A) : (begin t p m).1.held = p := by
  unfold begin
  split
  · exact held_leave p t
  · cases p <;> rfl

/-- The loop over the items changes no flags, and its thread stays in it, puts its buffer, or
crashes. -/
theorem flags_loop (m : Mem A) (b : A) (i : Nat) (t : Stage) :
    (m.loop b i t).2.quit = m.quit ∧ (m.loop b i t).2.done = m.done ∧
      ((m.loop b i t).1 = .working b (i + 1) ∨ (m.loop b i t).1 = .putting b ∨
        (m.loop b i t).1 = .crashed (some b)) := by
  cases t with
  | acq =>
    dsimp only [Mem.loop]
    split
    · exact ⟨rfl, rfl, .inl rfl⟩
    · exact ⟨rfl, rfl, .inr (.inl rfl)⟩
  | proc =>
    dsimp only [Mem.loop]
    split
    · exact ⟨rfl, rfl, .inl rfl⟩
    · exact ⟨rfl, rfl, .inr (.inl rfl)⟩
  | comm =>
    dsimp only [Mem.loop]
    split
    · exact ⟨rfl, rfl, .inr (.inl rfl)⟩
    · split
      · exact ⟨rfl, rfl, .inr (.inr rfl)⟩
      · split
        · exact ⟨rfl, rfl, .inr (.inl rfl)⟩
        · exact ⟨rfl, rfl, .inl rfl⟩

theorem held_loop (m : Mem A) (b : A) (i : Nat) (t : Stage) : (m.loop b i t).1.held = some b := by
  rcases (flags_loop m b i t).2.2 with h | h | h <;> rw [h] <;> rfl

/-- No thread makes a buffer or loses one. -/
theorem balanced : Balanced (code (A := A)) (fun _ ↦ bag) fun _ l ↦ bag l.held := by
  constructor
  · intro t l c v k hc
    unfold code at hc
    split at hc <;> cases hc
    · exact (add_zero _).symm
    · exact (zero_add _).symm
  · intro t l c k v hc
    unfold code at hc
    split at hc <;> cases hc
    exact (add_zero _).symm
  · intro t l f b m l' m' hc hf
    unfold code at hc
    split at hc <;> cases hc
    · cases hf
      rfl
    · cases hf
      rfl
    · rcases Option.ite_none_right_eq_some.mp hf with ⟨-, ⟨⟩⟩
      rfl
    · cases hf
      split
      · rw [held_leave]
        rfl
      · rfl
    · next t p =>
      have hl : (begin t p m).1 = l' := congrArg Prod.fst (Option.some.inj hf)
      rw [← hl, held_begin]
      rfl
    · next t c i =>
      have hl : (m.loop c i t).1 = l' := congrArg Prod.fst (Option.some.inj hf)
      rw [← hl, held_loop]
      rfl
    · cases hf
      rfl

/-! ### What a step can do -/

/-- The steps of `main` and of the threads, with queues of `N` slots. -/
inductive Step (N : Nat) (s : St A) : St A → Prop where
  | key (hp : s.loc none = .main .input) : Step N s (s.goTo none (.main (.quitting .comm)))
  | quit {t : Stage} (hp : s.loc none = .main (.quitting t)) :
      Step N s { s.goTo none (.main (.waiting t)) with
        mem := { s.mem with quit := Function.update s.mem.quit t true } }
  | joined {t : Stage} (hp : s.loc none = .main (.waiting t)) (hd : s.mem.done t = true) :
      Step N s (s.goTo none (.main (.next t)))
  | enough {t : Stage} (hp : s.loc (some t) = .top) (hq : s.mem.quit t = true) :
      Step N s (s.goTo (some t) (leave none t))
  | again {t : Stage} (hp : s.loc (some t) = .top) (hq : s.mem.quit t = false) :
      Step N s (s.goTo (some t) .getting)
  | get {t : Stage} {p : Option A} {ps : List (Option A)} (hp : s.loc (some t) = .getting)
      (hc : s.chan t.source = p :: ps) :
      Step N s ((s.setChan t.source ps).goTo (some t) (.got p))
  | drop {t : Stage} {p : Option A} (hp : s.loc (some t) = .got p) (hq : s.mem.quit t = true) :
      Step N s (s.goTo (some t) (leave p t))
  | null {t : Stage} (hp : s.loc (some t) = .got none) (hq : s.mem.quit t = false) :
      Step N s (s.goTo (some t) (.crashed none))
  | enter {t : Stage} {b : A} (hp : s.loc (some t) = .got (some b)) (hq : s.mem.quit t = false) :
      Step N s { s.goTo (some t) (.working b 0) with mem := s.mem.enter b t }
  | loop {t : Stage} {b : A} {i : Nat} (hp : s.loc (some t) = .working b i) :
      Step N s { s.goTo (some t) (s.mem.loop b i t).1 with mem := (s.mem.loop b i t).2 }
  | put {t : Stage} {b : A} (hp : s.loc (some t) = .putting b)
      (hr : (s.chan t.target).length < N) :
      Step N s ((s.setChan t.target (s.chan t.target ++ [some b])).goTo (some t) .top)
  | release {t : Stage} {p : Option A} (hp : s.loc (some t) = .releasing p)
      (hr : (s.chan t.target).length < N) :
      Step N s ((s.setChan t.target (s.chan t.target ++ [none])).goTo (some t) (.ending p))
  | finish {t : Stage} {p : Option A} (hp : s.loc (some t) = .ending p) :
      Step N s { s.goTo (some t) (.ended p) with
        mem := { s.mem with done := Function.update s.mem.done t true } }

theorem step_of_effect {N : Nat} {s s' : St A} {t : Thread}
    (h : Effect code (fun _ ↦ N) s t s') : Step N s s' := by
  cases h with
  | work hc hf =>
    unfold code at hc
    split at hc
    · next hp =>
      cases hc
      cases hf
      exact .key hp
    · next t hp =>
      cases hc
      cases hf
      exact .quit hp
    · next t hp =>
      cases hc
      rcases Option.ite_none_right_eq_some.mp hf with ⟨hd, ⟨⟩⟩
      exact .joined hp hd
    · next t hp =>
      cases hc
      cases hf
      cases hq : s.mem.quit t with
      | true => exact .enough hp hq
      | false => exact .again hp hq
    · cases hc
    · next t p hp =>
      cases hc
      have hb := Option.some.inj hf
      unfold begin at hb
      cases hq : s.mem.quit t with
      | true =>
        rw [hq] at hb
        cases hb
        exact .drop hp hq
      | false =>
        rw [hq] at hb
        cases p with
        | none =>
          cases hb
          exact .null hp hq
        | some b =>
          cases hb
          exact .enter hp hq
    · next t b i hp =>
      cases hc
      have hl := Option.some.inj hf
      have hstep : Step N s { s.goTo (some t) (s.mem.loop b i t).1 with
          mem := (s.mem.loop b i t).2 } := .loop hp
      rwa [hl] at hstep
    · cases hc
    · cases hc
    · next t p hp =>
      cases hc
      cases hf
      exact .finish hp
    · cases hc
  | put hc hr =>
    unfold code at hc
    split at hc <;> cases hc
    · next hp => exact .put hp hr
    · next hp => exact .release hp hr
  | get hc hv =>
    unfold code at hc
    split at hc <;> cases hc
    next hp => exact .get hp hv

/-! ### Who has been told to quit -/

/-- The order in which `main` stops the threads. -/
def Stage.rank : Stage → Nat
  | comm => 0
  | proc => 1
  | acq => 2

/-- Whether `main` has told a thread to quit. -/
def Main.told : Main → Stage → Bool
  | input, _ => false
  | quitting t, u => u.rank < t.rank
  | waiting t, u => u.rank ≤ t.rank
  | exited, _ => true

/-- Whether `main` has seen the end of a thread. -/
def Main.seen : Main → Stage → Bool
  | input, _ => false
  | quitting t, u | waiting t, u => u.rank < t.rank
  | exited, _ => true

theorem Main.told_waiting (t : Stage) :
    Function.update (Main.quitting t).told t true = (Main.waiting t).told := by
  funext u
  cases t <;> cases u <;> rfl

theorem Main.told_next (t : Stage) : (Main.next t).told = (Main.waiting t).told := by
  funext u
  cases t <;> cases u <;> rfl

theorem Main.seen_next {t u : Stage} (h : (Main.next t).seen u = true) :
    u = t ∨ (Main.waiting t).seen u = true := by
  revert h
  cases t <;> cases u <;> decide

/-- A thread behind its loop that has released the next one. -/
def Place.Over : Place A → Prop
  | ending _ | ended _ => True
  | _ => False

/-- What the place of a thread says of its flags. -/
def Place.Ok (t : Stage) (quit done : Bool) : Place A → Prop
  | top | getting | working _ _ | putting _ => done = false
  | got p => done = false ∧ p ≠ none
  | releasing _ => done = false ∧ quit = true ∧ t ≠ .comm
  | ending _ => done = false ∧ quit = true
  | ended _ => done = true ∧ quit = true
  | crashed _ | main _ => False

/-- `main` stops one thread after another, and only a thread behind its loop has put a null pointer
into its queue. -/
structure Control (s : St A) : Prop where
  main : ∃ m, s.loc none = .main m ∧ s.mem.quit = m.told ∧
    ∀ t, m.seen t = true → s.mem.done t = true
  ok : ∀ t, (s.loc (some t)).Ok t (s.mem.quit t) (s.mem.done t)
  null : ∀ t, none ∈ s.chan t.target → t ≠ .comm ∧ (s.loc (some t)).Over

omit [DecidableEq A] in
theorem Place.Ok.quit_of_over {t : Stage} {quit done : Bool} {l : Place A} (h : l.Ok t quit done)
    (ho : l.Over) : quit = true := by
  cases l with
  | ending p => exact h.2
  | ended p => exact h.2
  | _ => exact ho.elim

omit [DecidableEq A] in
/-- A thread whose end was seen is at its end. -/
theorem Place.Ok.over_of_done {t : Stage} {quit : Bool} {l : Place A} (h : l.Ok t quit true) :
    l.Over := by
  cases l with
  | ended p => trivial
  | got p => cases h.1
  | releasing p => cases h.1
  | ending p => cases h.1
  | crashed p => exact h
  | main m => exact h
  | top | getting | working b i | putting b => cases h

theorem Stage.target_injective : Function.Injective Stage.target := by
  intro t u h
  revert h
  cases t <;> cases u <;> decide

namespace Control

variable {s s' : St A}

omit [DecidableEq A] in
/-- By the time a thread is told to quit those before it are over. -/
theorem over_of_quit (h : Control s) {t u : Stage} (hq : s.mem.quit t = true)
    (hr : u.rank < t.rank) : (s.loc (some u)).Over := by
  rcases h.main with ⟨m, -, hm, hd⟩
  have hseen : m.seen u = true := by
    rw [hm] at hq
    cases m with
    | input => cases hq
    | quitting v =>
      have hv := of_decide_eq_true hq
      exact decide_eq_true (by omega)
    | waiting v =>
      have hv := of_decide_eq_true hq
      exact decide_eq_true (by omega)
    | exited => rfl
  have hok := h.ok u
  rw [hd u hseen] at hok
  exact hok.over_of_done

omit [DecidableEq A] in
/-- No thread in its loop finds a null pointer: the thread that would have put it there quits
later. -/
theorem no_null (h : Control s) {t : Stage} (hp : s.loc (some t) = .getting) :
    none ∉ s.chan t.source := by
  intro hn
  have hbefore {u : Stage} (hu : none ∈ s.chan u.target) (hr : t.rank < u.rank) : False := by
    have hover := h.over_of_quit ((h.ok u).quit_of_over (h.null u hu).2) hr
    rw [hp] at hover
    exact hover
  cases t with
  | comm => exact hbefore (u := .proc) hn (by decide)
  | proc => exact hbefore (u := .acq) hn (by decide)
  | acq => exact (h.null .comm hn).1 rfl

omit [DecidableEq A] in
/-- A step of `main`. -/
theorem moveMain (h : Control s) {m : Main} (hl : s'.loc = Function.update s.loc none (.main m))
    (hc : s'.chan = s.chan) (hd : s'.mem.done = s.mem.done) (hq : s'.mem.quit = m.told)
    (hm : ∀ t, s.mem.quit t = true → m.told t = true)
    (hs : ∀ t, m.seen t = true → s.mem.done t = true) : Control s' := by
  have hloc (t : Stage) : s'.loc (some t) = s.loc (some t) := by
    rw [hl, Function.update_of_ne (Option.some_ne_none t)]
  refine ⟨⟨m, by rw [hl, Function.update_self], hq, fun t ht ↦ by rw [hd]; exact hs t ht⟩, ?_, ?_⟩
  · intro t
    have hok := h.ok t
    rw [hloc, hd, hq]
    cases hp : s.loc (some t) with
    | top | getting | working b i | putting b =>
      rw [hp] at hok
      exact hok
    | got p =>
      rw [hp] at hok
      exact hok
    | releasing p =>
      rw [hp] at hok
      exact ⟨hok.1, hm t hok.2.1, hok.2.2⟩
    | ending p =>
      rw [hp] at hok
      exact ⟨hok.1, hm t hok.2⟩
    | ended p =>
      rw [hp] at hok
      exact ⟨hok.1, hm t hok.2⟩
    | crashed p =>
      rw [hp] at hok
      exact hok
    | main m' =>
      rw [hp] at hok
      exact hok
  · intro t hn
    rw [hc] at hn
    rw [hloc]
    exact h.null t hn

omit [DecidableEq A] in
/-- A step of a thread. -/
theorem move (h : Control s) {t : Stage} {l : Place A}
    (hl : s'.loc = Function.update s.loc (some t) l) (hq : s'.mem.quit = s.mem.quit)
    (hd : ∀ u, s.mem.done u = true → s'.mem.done u = true)
    (hu : ∀ u, u ≠ t → s'.mem.done u = s.mem.done u)
    (hok : l.Ok t (s.mem.quit t) (s'.mem.done t)) (ho : (s.loc (some t)).Over → l.Over)
    (hn : ∀ u, none ∈ s'.chan u.target → none ∈ s.chan u.target ∨ u = t ∧ t ≠ .comm ∧ l.Over) :
    Control s' := by
  have hother {u : Stage} (hut : u ≠ t) : s'.loc (some u) = s.loc (some u) := by
    rw [hl, Function.update_of_ne fun he ↦ hut (Option.some.inj he)]
  have hself : s'.loc (some t) = l := by rw [hl, Function.update_self]
  refine ⟨?_, ?_, ?_⟩
  · rcases h.main with ⟨m, hm, hmq, hmd⟩
    refine ⟨m, ?_, by rw [hq, hmq], fun u hu ↦ hd u (hmd u hu)⟩
    rw [hl, Function.update_of_ne (Option.some_ne_none t).symm, hm]
  · intro u
    rw [hq]
    by_cases hut : u = t
    · subst hut
      rwa [hself]
    · rw [hother hut, hu u hut]
      exact h.ok u
  · intro u hnu
    by_cases hut : u = t
    · subst hut
      rw [hself]
      rcases hn u hnu with hold | ⟨-, hnew⟩
      · exact ⟨(h.null u hold).1, ho (h.null u hold).2⟩
      · exact hnew
    · rw [hother hut]
      rcases hn u hnu with hold | ⟨he, -⟩
      · exact h.null u hold
      · exact absurd he hut

omit [DecidableEq A] in
/-- A step of a thread that changes neither flags nor queues. -/
theorem goTo (h : Control s) {t : Stage} {l : Place A} (hok : l.Ok t (s.mem.quit t) (s.mem.done t))
    (ho : (s.loc (some t)).Over → l.Over) : Control (s.goTo (some t) l) :=
  h.move rfl rfl (fun _ ↦ id) (fun _ _ ↦ rfl) hok ho fun _ ↦ .inl

omit [DecidableEq A] in
theorem ok_leave {t : Stage} {p : Option A} {quit done : Bool} (hd : done = false)
    (hq : quit = true) : (leave p t).Ok t quit done := by
  cases t with
  | comm => exact ⟨hd, hq⟩
  | proc | acq => exact ⟨hd, hq, nofun⟩

omit [DecidableEq A] in
/-- What a thread knows at its place. -/
theorem at_place (h : Control s) {t : Stage} {l : Place A} (hp : s.loc (some t) = l) :
    l.Ok t (s.mem.quit t) (s.mem.done t) := by
  have ht := h.ok t
  rwa [hp] at ht

theorem step {N : Nat} (h : Control s) (hs : Step N s s')
    (hc : ∀ t b i, s.loc (some t) = .working b i →
      (s.mem.loop b i t).1 ≠ .crashed (some b)) : Control s' := by
  have not_over {t : Stage} {l l' : Place A} (hp : s.loc (some t) = l) (hl : ¬l.Over) :
      (s.loc (some t)).Over → l'.Over := by
    rw [hp]
    exact fun ho ↦ absurd ho hl
  cases hs with
  | key hp =>
    rcases h.main with ⟨m, hm, hmq, hmd⟩
    rw [hp] at hm
    cases hm
    refine h.moveMain (m := .quitting .comm) rfl rfl rfl ?_ (fun t ht ↦ ?_) fun t ht ↦ ?_
    · change s.mem.quit = _
      rw [hmq]
      funext u
      cases u <;> rfl
    · rw [hmq] at ht
      cases ht
    · cases t <;> cases ht
  | @quit t hp =>
    rcases h.main with ⟨m, hm, hmq, hmd⟩
    rw [hp] at hm
    cases hm
    refine h.moveMain (m := .waiting t) rfl rfl rfl ?_ (fun u hu ↦ ?_) hmd
    · change Function.update s.mem.quit t true = _
      rw [hmq, Main.told_waiting]
    · rw [hmq] at hu
      have hlt := of_decide_eq_true hu
      exact decide_eq_true (Nat.le_of_lt hlt)
  | @joined t hp hd =>
    rcases h.main with ⟨m, hm, hmq, hmd⟩
    rw [hp] at hm
    cases hm
    refine h.moveMain (m := .next t) rfl rfl rfl ?_ (fun u hu ↦ ?_) fun u hu ↦ ?_
    · change s.mem.quit = _
      rw [hmq, Main.told_next]
    · rwa [Main.told_next, ← hmq]
    · rcases Main.seen_next hu with rfl | hu
      · exact hd
      · exact hmd u hu
  | @enough t hp hq => exact h.goTo (ok_leave (h.at_place hp) hq) (not_over hp id)
  | @again t hp hq =>
    have hd : s.mem.done t = false := h.at_place hp
    exact h.goTo hd (not_over hp id)
  | @get t p ps hp hcons =>
    refine h.move rfl rfl (fun _ ↦ id) (fun _ _ ↦ rfl) (l := .got p) ⟨h.at_place hp, ?_⟩
      (not_over hp id) ?_
    · rintro rfl
      apply h.no_null hp
      rw [hcons]
      exact List.mem_cons_self
    · intro u hu
      left
      change none ∈ Function.update s.chan t.source ps u.target at hu
      by_cases hc : u.target = t.source
      · rw [hc, Function.update_self] at hu
        rw [hc, hcons]
        exact List.mem_cons_of_mem _ hu
      · rwa [Function.update_of_ne hc] at hu
  | @drop t p hp hq => exact h.goTo (ok_leave (h.at_place hp).1 hq) (not_over hp id)
  | null hp hq => exact absurd rfl (h.at_place hp).2
  | @enter t b hp hq =>
    have hm : (s.mem.enter b t).quit = s.mem.quit ∧ (s.mem.enter b t).done = s.mem.done := by
      cases t <;> exact ⟨rfl, rfl⟩
    refine h.move rfl hm.1 (fun u hu ↦ ?_) (fun u _ ↦ ?_) (l := .working b 0) ?_
      (not_over hp id) fun _ ↦ .inl
    · change (s.mem.enter b t).done u = true
      rwa [hm.2]
    · exact congrFun hm.2 u
    · change (s.mem.enter b t).done t = false
      rw [hm.2]
      exact (h.at_place hp).1
  | @loop t b i hp =>
    have hd : s.mem.done t = false := h.at_place hp
    rcases flags_loop s.mem b i t with ⟨hmq, hmd, hl⟩
    refine h.move rfl hmq (fun u hu ↦ ?_) (fun u _ ↦ ?_) (l := (s.mem.loop b i t).1) ?_
      (not_over hp id) fun _ ↦ .inl
    · change (s.mem.loop b i t).2.done u = true
      rwa [hmd]
    · exact congrFun hmd u
    · change ((s.mem.loop b i t).1).Ok t _ ((s.mem.loop b i t).2.done t)
      rw [hmd]
      rcases hl with hl | hl | hl
      · rw [hl]
        exact hd
      · rw [hl]
        exact hd
      · exact absurd hl (hc t b i hp)
  | @put t b hp hr =>
    have hd : s.mem.done t = false := h.at_place hp
    refine h.move rfl rfl (fun _ ↦ id) (fun _ _ ↦ rfl) (l := .top) hd (not_over hp id) ?_
    intro u hu
    left
    change none ∈ Function.update s.chan t.target (s.chan t.target ++ [some b]) u.target at hu
    by_cases hut : u.target = t.target
    · rw [hut, Function.update_self, List.mem_append, List.mem_singleton] at hu
      rw [hut]
      exact hu.resolve_right nofun
    · rwa [Function.update_of_ne hut] at hu
  | @release t p hp hr =>
    rcases h.at_place hp with ⟨hd, hq, hne⟩
    refine h.move rfl rfl (fun _ ↦ id) (fun _ _ ↦ rfl) (l := .ending p) ⟨hd, hq⟩
      (not_over hp id) ?_
    intro u hu
    change none ∈ Function.update s.chan t.target (s.chan t.target ++ [none]) u.target at hu
    by_cases hut : u = t
    · exact .inr ⟨hut, hne, trivial⟩
    · left
      have htu : u.target ≠ t.target := fun he ↦ hut (Stage.target_injective he)
      rwa [Function.update_of_ne htu] at hu
  | @finish t p hp =>
    refine h.move rfl rfl (fun u hu ↦ ?_) (fun u hu ↦ ?_) (l := .ended p)
      ⟨Function.update_self .., (h.at_place hp).2⟩ (fun _ ↦ trivial) fun _ ↦ .inl
    · change Function.update s.mem.done t true u = true
      by_cases hut : u = t
      · rw [hut, Function.update_self]
      · rwa [Function.update_of_ne hut]
    · exact Function.update_of_ne hu ..

end Control

end CtrlrFx.Os.AcqDemo
