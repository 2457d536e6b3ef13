import CtrlrFx.Os.Channels
import CtrlrFx.Os.Pool

/-!
# Events in the blocks of a pool

`test/memory/EvtTest/EvtTest.cpp`: one thread makes events in blocks of a pool and fires them
into the queue of another, which reports them and deletes them.
-/

namespace CtrlrFx.Os.EvtTest
open Base Network

/-- `StatusEvt`, `WarningEvt` and `ErrorEvt`. -/
inductive Kind where
  | status (typ : Nat)
  | warning
  | error
  deriving DecidableEq, Repr

/-- The event of each turn of the loop; `test/memory/EvtTest/EvtTest.cpp:141–151`. -/
def kind : Nat → Kind
  | 1 => .status 1
  | 2 => .status 2
  | 3 => .warning
  | _ => .error

/-- An event with the number that its constructor gave it. -/
structure Event where
  ninst : Int32
  kind : Kind
  deriving DecidableEq

/-- `main`, `SrcThread` and `DestThread`. -/
inductive Thread where
  | main
  | src
  | dst
  deriving DecidableEq, Repr

instance : Fintype Thread := ⟨{.main, .src, .dst}, fun t ↦ by cases t <;> decide⟩

/-- The queue of `memPool_`, and `que_` of `DestThread`. -/
inductive Que where
  | pool
  | que
  deriving DecidableEq, Repr

instance : Fintype Que := ⟨{.pool, .que}, fun c ↦ by cases c <;> decide⟩

/-- What is in them. The end is fired as a null pointer. -/
abbrev Que.Item (A : Type) : Que → Type
  | pool => A
  | que => Option A

/-- `N_EVTS` blocks, and a queue of so many slots. -/
def Que.cap (N M : Nat) : Que → Nat
  | pool => N
  | que => M

/-- Where a thread is. The source waits for its timer, is in turn `i` of `n`, in `new`, with the
block that it got, in `put` with the event that it made, or in the `put` of the null pointer; the
destination is in `get`, with what it got, or in `delete`. `main` waits for a key, and then for the
end of the destination. -/
inductive Place (A : Type) where
  | timing
  | firing (i n : Nat)
  | allocating (i n : Nat)
  | making (i n : Nat) (p : A)
  | passing (i n : Nat) (p : A)
  | closing
  | receiving
  | received (p : Option A)
  | freeing (p : A)
  | input
  | joining
  | ended
  deriving DecidableEq, Repr

/-- The events in the blocks, the instance counter, the semaphore of the timer, and whether the
destination has ended. `fired` are the events that were made, `seen` those that were reported. -/
structure Mem (A : Type) where
  heap : A → Event
  instCtr : Int32
  tmrSem : Nat
  done : Bool
  fired : List Event
  seen : List Event

variable {A : Type}

section Code

variable [DecidableEq A]

namespace Mem

/-- `new` of the event of turn `i` in the block at `p`. -/
def make (m : Mem A) (i : Nat) (p : A) : Mem A :=
  { m with
    heap := Function.update m.heap p { ninst := m.instCtr + 1, kind := kind i }
    instCtr := m.instCtr + 1
    fired := m.fired ++ [{ ninst := m.instCtr + 1, kind := kind i }] }

end Mem

/-- The code of the threads, where `rand` gives what the outside world says;
`test/memory/EvtTest/EvtTest.cpp:132–160,183–198,202–220`. -/
def code (randMax : Nat) : Program Thread (Que.Item A) (Place A) (Mem A) Nat
  | .src, .timing => .work fun r m ↦
      if 0 < m.tmrSem then some (.closing, { m with tmrSem := m.tmrSem - 1 })
      else some (.firing 0 (r / (randMax / 4) + 1), m)
  | .src, .firing i n => .work fun _ m ↦ some (if i < n then .allocating i n else .timing, m)
  | .src, .allocating i n => .get .pool (.making i n)
  | .src, .making i n p => .work fun _ m ↦ some (.passing i n p, m.make i p)
  | .src, .passing i n p => .put .que (some p) (.firing (i + 1) n)
  | .src, .closing => .put .que none .ended
  | .dst, .receiving => .get .que .received
  | .dst, .received none => .work fun _ m ↦ some (.ended, { m with done := true })
  | .dst, .received (some p) => .work fun _ m ↦
      some (.freeing p, { m with seen := m.seen ++ [m.heap p] })
  | .dst, .freeing p => .put .pool p .receiving
  | .main, .input => .work fun _ m ↦ some (.joining, { m with tmrSem := m.tmrSem + 1 })
  | .main, .joining => .work fun _ m ↦ if m.done then some (.ended, m) else none
  | _, _ => .stop

/-- The test with atomic queues. -/
abbrev St (A : Type) := State Thread (Que.Item A) (Place A) (Mem A)

/-- The test with the code of the queues. -/
abbrev Test (A : Type) (N M : Nat) :=
  Sys (Place A) (Mem A) fun c : Que ↦ MsgQueue.channel (c.Item A) Thread (c.cap N M)

def startPlace : Thread → Place A
  | .main => .input
  | .src => .timing
  | .dst => .receiving

def startMem (heap : A → Event) : Mem A :=
  { heap, instCtr := 0, tmrSem := 0, done := false, fired := [], seen := [] }

/-- The pool as its constructor leaves it, and a new queue. -/
def startQue (pool : MsgQueue A) (cells : List (Option A)) :
    (c : Que) → MsgQueue (c.Item A)
  | .pool => pool
  | .que => MsgQueue.unset.resize cells

/-- The test on a new pool of blocks at these addresses and a new queue with `M` slots. -/
def machine (randMax : Nat) (addrs : List A) (M : Nat) :
    Machine (Test A addrs.length M) (Thread × Nat) :=
  Sys.machine (code randMax) fun s ↦ ∃ (heap : A → Event) (blocks : List A)
    (cells : List (Option A)) (q : MsgQueue A), blocks.length = addrs.length ∧
      cells.length = M ∧ Pool.create blocks addrs = some q ∧
      s = { loc := startPlace, chan := fun c ↦ MsgQueue.Sys.rest (startQue q cells c),
            mem := startMem heap }

/-! ### Every block is in one place -/

/-- The block that a thread has. -/
def Place.held : Place A → Option A
  | making _ _ p | passing _ _ p | freeing p => some p
  | received p => p
  | _ => none

/-- The block that an item stands for. -/
def Que.block : (c : Que) → c.Item A → Multiset A
  | pool, p => {p}
  | que, p => bag p

/-- Events are made in blocks of the pool, which come back to it. -/
theorem balanced (randMax : Nat) :
    Balanced (code (A := A) randMax) Que.block fun _ l ↦ bag l.held := by
  constructor
  · intro t l c v k hc
    unfold code at hc
    split at hc <;> cases hc <;> rfl
  · intro t l c k v hc
    unfold code at hc
    split at hc <;> cases hc <;> exact (add_zero _).symm
  · intro t l f b m l' m' hc hf
    unfold code at hc
    split at hc <;> cases hc
    · dsimp only at hf
      split at hf <;> cases hf <;> rfl
    · cases hf
      split <;> rfl
    · cases hf
      rfl
    · cases hf
      rfl
    · cases hf
      rfl
    · cases hf
      rfl
    · rcases Option.ite_none_right_eq_some.mp hf with ⟨-, ⟨⟩⟩
      rfl

/-! ### What a step can do -/

/-- The steps of the threads, with room for `N` blocks in the pool and `M` events in the queue. -/
inductive Step (N M : Nat) (s : St A) : St A → Prop where
  | key (hp : s.loc .main = .input) :
      Step N M s { s.goTo .main .joining with mem := { s.mem with tmrSem := s.mem.tmrSem + 1 } }
  | joined (hp : s.loc .main = .joining) (hd : s.mem.done = true) :
      Step N M s (s.goTo .main .ended)
  | stopped (hp : s.loc .src = .timing) :
      Step N M s { s.goTo .src .closing with mem := { s.mem with tmrSem := s.mem.tmrSem - 1 } }
  | tick {n : Nat} (hp : s.loc .src = .timing) : Step N M s (s.goTo .src (.firing 0 n))
  | turn {i n : Nat} (hp : s.loc .src = .firing i n) : Step N M s (s.goTo .src (.allocating i n))
  | pause {i n : Nat} (hp : s.loc .src = .firing i n) : Step N M s (s.goTo .src .timing)
  | alloc {i n : Nat} {p : A} {ps : List A} (hp : s.loc .src = .allocating i n)
      (hc : s.chan .pool = p :: ps) :
      Step N M s ((s.setChan .pool ps).goTo .src (.making i n p))
  | make {i n : Nat} {p : A} (hp : s.loc .src = .making i n p) :
      Step N M s { s.goTo .src (.passing i n p) with mem := s.mem.make i p }
  | pass {i n : Nat} {p : A} (hp : s.loc .src = .passing i n p) (hr : (s.chan .que).length < M) :
      Step N M s ((s.setChan .que (s.chan .que ++ [some p])).goTo .src (.firing (i + 1) n))
  | close (hp : s.loc .src = .closing) (hr : (s.chan .que).length < M) :
      Step N M s ((s.setChan .que (s.chan .que ++ [none])).goTo .src .ended)
  | receive {p : Option A} {ps : List (Option A)} (hp : s.loc .dst = .receiving)
      (hc : s.chan .que = p :: ps) :
      Step N M s ((s.setChan .que ps).goTo .dst (.received p))
  | last (hp : s.loc .dst = .received none) :
      Step N M s { s.goTo .dst .ended with mem := { s.mem with done := true } }
  | report {p : A} (hp : s.loc .dst = .received (some p)) :
      Step N M s { s.goTo .dst (.freeing p) with
        mem := { s.mem with seen := s.mem.seen ++ [s.mem.heap p] } }
  | free {p : A} (hp : s.loc .dst = .freeing p) (hr : (s.chan .pool).length < N) :
      Step N M s ((s.setChan .pool (s.chan .pool ++ [p])).goTo .dst .receiving)

theorem step_of_effect {randMax N M : Nat} {s s' : St A} {t : Thread}
    (h : Effect (code randMax) (Que.cap N M) s t s') : Step N M s s' := by
  cases h with
  | work hc hf =>
    unfold code at hc
    split at hc <;> cases hc
    · next hp =>
      dsimp only at hf
      split at hf <;> cases hf
      · exact .stopped hp
      · exact .tick hp
    · next hp =>
      cases hf
      split
      · exact .turn hp
      · exact .pause hp
    · next hp =>
      cases hf
      exact .make hp
    · next hp =>
      cases hf
      exact .last hp
    · next hp =>
      cases hf
      exact .report hp
    · next hp =>
      cases hf
      exact .key hp
    · next hp =>
      rcases Option.ite_none_right_eq_some.mp hf with ⟨hd, ⟨⟩⟩
      exact .joined hp hd
  | put hc hr =>
    unfold code at hc
    split at hc <;> cases hc
    · next hp => exact .pass hp hr
    · next hp => exact .close hp hr
    · next hp => exact .free hp hr
  | @get c v vs k hc hv =>
    unfold code at hc
    split at hc <;> cases hc
    · next hp => exact .alloc hp hv
    · next hp => exact .receive hp hv

end Code

/-! ### What holds along every run -/

/-- Every block is in the pool, in the queue, or with a thread. -/
def Owned (addrs : List A) (s : St A) : Prop :=
  stock Que.block (fun _ l ↦ bag l.held) s = addrs

/-- A block that a thread has nobody else has, and it is not in the queue. -/
theorem Owned.apart {addrs : List A} {s : St A} (h : Owned addrs s) (hd : addrs.Nodup) {t : Thread}
    {p : A} (hp : (s.loc t).held = some p) :
    (∀ u, u ≠ t → (s.loc u).held ≠ some p) ∧ some p ∉ s.chan .que := by
  have hnd : (stock Que.block (fun _ l ↦ bag l.held) s).Nodup := by
    rw [h]
    exact Multiset.coe_nodup.mpr hd
  rcases apart_of_nodup Que.block (fun _ (l : Place A) ↦ bag l.held) hnd (mem_bag.mpr hp) with
    ⟨hthreads, hques⟩
  refine ⟨fun u hu hup ↦ hthreads u hu (mem_bag.mpr hup), fun hc ↦ ?_⟩
  exact hques .que (some p) hc (mem_bag.mpr rfl)

/-- The event that a thread has not passed on or reported yet. -/
def Place.part (heap : A → Event) : Place A → List Event
  | passing _ _ p => [heap p]
  | received (some p) => [heap p]
  | _ => []

/-- The events in the queue. -/
def line (heap : A → Event) (ps : List (Option A)) : List Event := ps.filterMap (Option.map heap)

/-- Events that were made and not reported yet, the next one first. -/
def pending (s : St A) : List Event :=
  (s.loc .dst).part s.mem.heap ++ line s.mem.heap (s.chan .que) ++ (s.loc .src).part s.mem.heap

/-- The destination has the null pointer. -/
def Place.Over : Place A → Prop
  | received none | ended => True
  | _ => False

/-- Where the null pointer is: not fired yet, at the end of the queue, or out of it. -/
inductive Phase (src : Place A) (ps : List (Option A)) (dst : Place A) : Prop where
  | running (hs : src ≠ .ended) (hp : none ∉ ps) (hd : ¬dst.Over)
  | closed {xs : List (Option A)} (hs : src = .ended) (hp : ps = xs ++ [none]) (hx : none ∉ xs)
      (hd : ¬dst.Over)
  | past (hs : src = .ended) (hp : ps = []) (hd : dst.Over)

namespace Phase

variable {src dst l : Place A} {p : Option A} {ps : List (Option A)}

/-- The destination goes on without the queue. -/
theorem update (h : Phase src ps dst) (hl : l.Over ↔ dst.Over) : Phase src ps l := by
  cases h with
  | running hs hp hd => exact .running hs hp fun ho ↦ hd (hl.mp ho)
  | closed hs hp hx hd => exact .closed hs hp hx fun ho ↦ hd (hl.mp ho)
  | past hs hp hd => exact .past hs hp (hl.mpr hd)

/-- The null pointer is the last that the destination gets. -/
theorem receive {qs : List (Option A)} (h : Phase src qs dst) (hq : qs = p :: ps) :
    Phase src ps (.received p) := by
  cases h with
  | running hs hp hd =>
    rw [hq, List.mem_cons, not_or] at hp
    refine .running hs hp.2 ?_
    cases p with
    | none => exact absurd rfl hp.1
    | some q => exact id
  | @closed xs hs hp hx hd =>
    rw [hq] at hp
    cases xs with
    | nil =>
      cases hp
      exact .past hs rfl trivial
    | cons x xs =>
      cases hp
      rw [List.mem_cons, not_or] at hx
      refine .closed hs rfl hx.2 ?_
      cases p with
      | none => exact absurd rfl hx.1
      | some q => exact id
  | past hs hp hd =>
    rw [hq] at hp
    cases hp

end Phase

/-- The places of each of the threads. -/
def Place.Of : Thread → Place A → Prop
  | .main, input | .main, joining | .main, ended => True
  | .src, timing | .src, firing _ _ | .src, allocating _ _ | .src, making _ _ _
  | .src, passing _ _ _ | .src, closing | .src, ended => True
  | .dst, receiving | .dst, received _ | .dst, freeing _ | .dst, ended => True
  | _, _ => False

/-- The blocks are all there, the events come in order and with their numbers, and the end comes
last. -/
structure Sound (addrs : List A) (s : St A) : Prop where
  owned : Owned addrs s
  order : s.mem.seen ++ pending s = s.mem.fired
  ninst : s.mem.fired.map Event.ninst = (List.range' 1 s.mem.fired.length).map Int32.ofNat
  instCtr : s.mem.instCtr = Int32.ofNat s.mem.fired.length
  phase : Phase (s.loc .src) (s.chan .que) (s.loc .dst)
  places : ∀ t, (s.loc t).Of t
  done : s.mem.done = true ↔ s.loc .dst = .ended

theorem Place.part_congr {heap heap' : A → Event} {l : Place A}
    (h : ∀ p, l.held = some p → heap' p = heap p) : l.part heap' = l.part heap := by
  cases l with
  | passing i n p => rw [part, part, h p rfl]
  | received p =>
    cases p with
    | none => rfl
    | some p => rw [part, part, h p rfl]
  | _ => rfl

theorem line_congr {heap heap' : A → Event} {ps : List (Option A)}
    (h : ∀ p, some p ∈ ps → heap' p = heap p) : line heap' ps = line heap ps := by
  apply List.filterMap_congr
  intro p hp
  cases p with
  | none => rfl
  | some p => exact congrArg some (h p hp)

theorem line_append (heap : A → Event) (ps qs : List (Option A)) :
    line heap (ps ++ qs) = line heap ps ++ line heap qs :=
  List.filterMap_append

namespace Sound

variable {addrs : List A} {s s' : St A} {t : Thread} {l : Place A}

/-- A step that makes no event. -/
theorem moved (h : Sound addrs s) (hloc : s'.loc = Function.update s.loc t l)
    (ho : Owned addrs s') (hl : l.Of t) (hf : s'.mem.fired = s.mem.fired)
    (hi : s'.mem.instCtr = s.mem.instCtr)
    (hp : s'.mem.seen ++ pending s' = s.mem.seen ++ pending s)
    (hph : Phase (s'.loc .src) (s'.chan .que) (s'.loc .dst))
    (hd : s'.mem.done = true ↔ s'.loc .dst = .ended) : Sound addrs s' := by
  refine ⟨ho, by rw [hp, hf, h.order], by rw [hf, h.ninst], by rw [hi, hf, h.instCtr], hph, ?_, hd⟩
  intro u
  rw [hloc]
  by_cases hu : u = t
  · rwa [hu, Function.update_self]
  · rw [Function.update_of_ne hu]
    exact h.places u

/-- The source goes on without an event. -/
theorem source (h : Sound addrs s) {l₀ : Place A} (hp : s.loc .src = l₀)
    (hloc : s'.loc = Function.update s.loc .src l) (hc : s'.chan .que = s.chan .que)
    (ho : Owned addrs s') (hl : l.Of .src) (hf : s'.mem.fired = s.mem.fired)
    (hi : s'.mem.instCtr = s.mem.instCtr) (hh : s'.mem.heap = s.mem.heap)
    (hs : s'.mem.seen = s.mem.seen) (hd : s'.mem.done = s.mem.done)
    (hpart : l.part s.mem.heap = l₀.part s.mem.heap) (hne : l₀ ≠ .ended) (hne' : l ≠ .ended) :
    Sound addrs s' := by
  have hsrc : s'.loc .src = l := by rw [hloc, Function.update_self]
  have hdst : s'.loc .dst = s.loc .dst := by rw [hloc, Function.update_of_ne (by decide)]
  refine h.moved hloc ho hl hf hi ?_ ?_ ?_
  · rw [pending, pending, hs, hh, hc, hsrc, hdst, hp, hpart]
  · rw [hsrc, hdst, hc]
    cases h.phase with
    | running _ hn ho => exact .running hne' hn ho
    | closed he => exact absurd (hp.symm.trans he) hne
    | past he => exact absurd (hp.symm.trans he) hne
  · rw [hd, hdst, h.done]

/-- What the source is about to fire comes last. -/
theorem append (h : Sound addrs s) {l₀ : Place A} {p : Option A} (hp : s.loc .src = l₀)
    (hl : l.Of .src) (ho : Owned addrs s') (hne : l₀ ≠ .ended)
    (hs : s' = (s.setChan .que (s.chan .que ++ [p])).goTo .src l)
    (hpart : line s.mem.heap [p] ++ l.part s.mem.heap = l₀.part s.mem.heap)
    (hnull : p = none ↔ l = .ended) : Sound addrs s' := by
  have hsrc : s'.loc .src = l := by rw [hs, State.loc_goTo, Function.update_self]
  have hdst : s'.loc .dst = s.loc .dst := by
    rw [hs, State.loc_goTo, Function.update_of_ne (by decide), State.loc_setChan]
  have hque : s'.chan .que = s.chan .que ++ [p] := by
    rw [hs, State.chan_goTo, State.chan_setChan, Function.update_self]
  have hmem : s'.mem = s.mem := by rw [hs, State.mem_goTo, State.mem_setChan]
  refine h.moved (by rw [hs]; rfl) ho hl (by rw [hmem]) (by rw [hmem]) ?_ ?_ ?_
  · rw [pending, pending, hmem, hsrc, hdst, hque, hp, ← hpart, line_append]
    simp only [List.append_assoc]
  · rw [hsrc, hdst, hque]
    cases h.phase with
    | running _ hn hd =>
      cases p with
      | none => exact .closed (hnull.mp rfl) rfl hn hd
      | some q =>
        refine .running (fun he ↦ ?_) ?_ hd
        · cases hnull.mpr he
        · rw [List.mem_append, List.mem_singleton, not_or]
          exact ⟨hn, nofun⟩
    | closed he => exact absurd (hp.symm.trans he) hne
    | past he => exact absurd (hp.symm.trans he) hne
  · rw [hmem, hdst, h.done]

/-- `done` is not set while the destination is at another place than its end. -/
theorem not_ended (h : Sound addrs s) (hp : s.loc .dst = l) (hl : l ≠ .ended) :
    s.mem.done ≠ true := by
  intro hd
  exact hl (hp.symm.trans (h.done.mp hd))

section Step

variable [DecidableEq A]

/-- A new event comes last, with the next number. -/
theorem make (h : Sound addrs s) (hd : addrs.Nodup) {i n : Nat} {p : A}
    (hp : s.loc .src = .making i n p)
    (ho : Owned addrs { s.goTo .src (.passing i n p) with mem := s.mem.make i p }) :
    Sound addrs { s.goTo .src (.passing i n p) with mem := s.mem.make i p } := by
  have hheld : (s.loc .src).held = some p := by rw [hp]; rfl
  rcases h.owned.apart hd hheld with ⟨hthreads, hque⟩
  have hheap (q : A) (hq : q ≠ p) : (s.mem.make i p).heap q = s.mem.heap q :=
    Function.update_of_ne hq ..
  have hdst : (s.loc .dst).part (s.mem.make i p).heap = (s.loc .dst).part s.mem.heap := by
    apply Place.part_congr
    rintro q hq
    apply hheap
    rintro rfl
    exact hthreads .dst (by decide) hq
  have hline : line (s.mem.make i p).heap (s.chan .que) = line s.mem.heap (s.chan .que) := by
    apply line_congr
    rintro q hq
    apply hheap
    rintro rfl
    exact hque hq
  have hlen : (s.mem.make i p).fired.length = s.mem.fired.length + 1 := List.length_append
  have hctr : (s.mem.make i p).instCtr = Int32.ofNat (s.mem.fired.length + 1) := by
    rw [Int32.ofNat_add, ← h.instCtr]
    rfl
  refine ⟨ho, ?_, ?_, ?_, ?_, ?_, h.done⟩
  · have horder := h.order
    rw [pending, hp] at horder
    change s.mem.seen ++ ((s.loc .dst).part (s.mem.make i p).heap ++
      line (s.mem.make i p).heap (s.chan .que) ++ [(s.mem.make i p).heap p]) = s.mem.fired ++ [_]
    have hnew : (s.mem.make i p).heap p = { ninst := s.mem.instCtr + 1, kind := kind i } :=
      Function.update_self ..
    rw [hdst, hline, hnew, ← horder]
    simp only [Place.part, List.append_nil, List.append_assoc]
  · change (s.mem.make i p).fired.map Event.ninst =
      (List.range' 1 (s.mem.make i p).fired.length).map Int32.ofNat
    rw [hlen, List.range'_concat, List.map_append, ← h.ninst, Nat.one_mul, Nat.add_comm 1,
      List.map_singleton, ← hctr]
    exact List.map_append
  · change (s.mem.make i p).instCtr = Int32.ofNat (s.mem.make i p).fired.length
    rw [hlen, hctr]
  · cases h.phase with
    | running _ hn hdo => exact .running nofun hn hdo
    | closed he => cases hp.symm.trans he
    | past he => cases hp.symm.trans he
  · rintro (_ | _ | _)
    · exact h.places .main
    · trivial
    · exact h.places .dst

theorem step {N M : Nat} (h : Sound addrs s) (hd : addrs.Nodup) (ho : Owned addrs s')
    (hs : Step N M s s') : Sound addrs s' := by
  cases hs with
  | key hp => exact h.moved rfl ho trivial rfl rfl rfl h.phase h.done
  | joined hp _ => exact h.moved rfl ho trivial rfl rfl rfl h.phase h.done
  | stopped hp => exact h.source hp rfl rfl ho trivial rfl rfl rfl rfl rfl rfl nofun nofun
  | tick hp => exact h.source hp rfl rfl ho trivial rfl rfl rfl rfl rfl rfl nofun nofun
  | turn hp => exact h.source hp rfl rfl ho trivial rfl rfl rfl rfl rfl rfl nofun nofun
  | pause hp => exact h.source hp rfl rfl ho trivial rfl rfl rfl rfl rfl rfl nofun nofun
  | alloc hp hc => exact h.source hp rfl rfl ho trivial rfl rfl rfl rfl rfl rfl nofun nofun
  | make hp => exact h.make hd hp ho
  | @pass i n p hp _ =>
    exact h.append (l := .firing (i + 1) n) hp trivial ho nofun rfl rfl (iff_of_false nofun nofun)
  | close hp _ => exact h.append (l := .ended) hp trivial ho nofun rfl rfl (iff_of_true rfl rfl)
  | @receive p ps hp hc =>
    refine h.moved (l := .received p) rfl ho trivial rfl rfl ?_ ?_ ?_
    · change s.mem.seen ++ ((Place.received p).part s.mem.heap ++
        line s.mem.heap (Function.update s.chan .que ps .que) ++ (s.loc .src).part s.mem.heap) = _
      rw [Function.update_self, pending, hp, hc]
      cases p <;> rfl
    · change Phase (s.loc .src) (Function.update s.chan .que ps .que) (.received p)
      rw [Function.update_self]
      exact h.phase.receive hc
    · exact iff_of_false (h.not_ended hp nofun) nofun
  | last hp =>
    refine h.moved (l := .ended) rfl ho trivial rfl rfl ?_ ?_ (iff_of_true rfl rfl)
    · change s.mem.seen ++ ((Place.ended : Place A).part s.mem.heap ++
        line s.mem.heap (s.chan .que) ++ (s.loc .src).part s.mem.heap) = _
      rw [pending, hp]
      rfl
    · exact h.phase.update (iff_of_true trivial (by rw [hp]; trivial))
  | @report p hp =>
    refine h.moved (l := .freeing p) rfl ho trivial rfl rfl ?_ ?_ ?_
    · change s.mem.seen ++ [s.mem.heap p] ++ ((Place.freeing p).part s.mem.heap ++
        line s.mem.heap (s.chan .que) ++ (s.loc .src).part s.mem.heap) = _
      rw [pending, hp]
      simp only [Place.part, List.append_assoc, List.nil_append]
    · exact h.phase.update (iff_of_false id (by rw [hp]; exact id))
    · exact iff_of_false (h.not_ended hp nofun) nofun
  | @free p hp hr =>
    refine h.moved (l := .receiving) rfl ho trivial rfl rfl ?_ ?_ ?_
    · change s.mem.seen ++ ((Place.receiving : Place A).part s.mem.heap ++
        line s.mem.heap (s.chan .que) ++ (s.loc .src).part s.mem.heap) = _
      rw [pending, hp]
      rfl
    · exact h.phase.update (iff_of_false id (by rw [hp]; exact id))
    · exact iff_of_false (h.not_ended hp nofun) nofun

end Step

end Sound

theorem sum_que (f : Que → Multiset A) : ∑ c, f c = f .pool + (f .que + 0) := rfl

theorem sum_thread {X : Type} [AddCommMonoid X] (f : Thread → X) :
    ∑ t, f t = f .main + (f .src + (f .dst + 0)) := rfl

/-- All blocks, by where they are. -/
theorem Sound.addrs_eq {addrs : List A} {s : St A} (h : Sound addrs s) :
    (addrs : Multiset A) = (s.chan .pool : List A) + ((s.chan .que).map bag).sum +
      (bag (s.loc .src).held + bag (s.loc .dst).held) := by
  have hmain : (s.loc .main).held = none := by
    have hp := h.places .main
    cases hl : s.loc .main with
    | input | joining | ended => rfl
    | _ =>
      rw [hl] at hp
      exact hp.elim
  have hpool : ((s.chan .pool).map (Que.block .pool)).sum = (s.chan .pool : List A) :=
    sum_map_singleton _
  rw [← h.owned, stock, sum_que, sum_thread, hmain, hpool, bag_none, zero_add, add_zero, add_zero]
  rfl

/-- A thread that deletes an event finds room for its block. -/
theorem Sound.pool_lt {addrs : List A} {s : St A} (h : Sound addrs s) {p : A}
    (hp : s.loc .dst = .freeing p) : (s.chan .pool).length < addrs.length := by
  have hcard := congrArg Multiset.card h.addrs_eq
  rw [hp] at hcard
  simp only [Place.held, bag_some, Multiset.card_add, Multiset.coe_card,
    Multiset.card_singleton] at hcard
  omega

/-- Where a thread is in a call on the pool, and where it would be if the calls were atomic. -/
inductive AtPool : Thread → Network.Phase A → Place A → Prop
  | outside {t : Thread} {l : Place A} : AtPool t .idle l
  | putting {v : A} : AtPool .dst (.putting v) (.freeing v)
  | stored : AtPool .dst .stored .receiving
  | getting {i n : Nat} : AtPool .src .getting (.allocating i n)
  | fetched {i n : Nat} {v : A} : AtPool .src (.fetched v) (.making i n v)

/-- Who carries a free slot has a block. -/
theorem AtPool.slotFlight_le {t : Thread} {p : MsgQueue.Pc A} {l : Place A}
    (h : AtPool t p.phase l) : MsgQueue.slotFlight p ≤ (bag l.held).card := by
  cases p with
  | putLocked v =>
    cases h
    exact Nat.le_refl 1
  | getPost v =>
    cases h
    exact Nat.le_refl 1
  | _ => exact Nat.zero_le _

/-- Who carries a block of the pool has none. -/
theorem AtPool.dataFlight_add_le {t : Thread} {p : MsgQueue.Pc A} {l : Place A}
    (h : AtPool t p.phase l) : MsgQueue.dataFlight p + (bag l.held).card ≤ 1 := by
  cases p with
  | putPost =>
    cases h
    exact Nat.le_refl 1
  | getLocked =>
    cases h
    exact Nat.le_refl 1
  | _ => exact (Nat.zero_add _).trans_le (card_bag_le _)

/-- `main` does not use the pool. -/
theorem AtPool.flight_main {p : MsgQueue.Pc A} {l : Place A} (h : AtPool .main p.phase l) :
    MsgQueue.slotFlight p = 0 ∧ MsgQueue.dataFlight p = 0 := by
  cases p with
  | putLocked v | putPost | getLocked | getPost v => cases h
  | _ => exact ⟨rfl, rfl⟩

/-- A sound state whose queues have no more than they have room for. -/
def Kept (addrs : List A) (M : Nat) (s : St A) : Prop :=
  Sound addrs s ∧ ∀ c, (s.chan c).length ≤ c.cap addrs.length M

theorem sound_start {addrs : List A} {s : St A} {heap : A → Event} (hl : s.loc = startPlace)
    (hm : s.mem = startMem heap) (hp : s.chan .pool = addrs) (hq : s.chan .que = []) :
    Sound addrs s := by
  have hpool : ((s.chan .pool).map (Que.block .pool)).sum = (addrs : Multiset A) := by
    rw [hp]
    exact sum_map_singleton addrs
  have hmain : s.loc .main = .input := by rw [hl]; rfl
  have hsrc : s.loc .src = .timing := by rw [hl]; rfl
  have hdst : s.loc .dst = .receiving := by rw [hl]; rfl
  refine ⟨?_, ?_, ?_, ?_, ?_, ?_, ?_⟩
  · rw [Owned, stock, sum_que, sum_thread, hpool, hq, hmain, hsrc, hdst]
    simp [Place.held]
  · rw [pending, hm, hq, hsrc, hdst]
    rfl
  · rw [hm]
    rfl
  · rw [hm]
    rfl
  · rw [hsrc, hdst, hq]
    refine .running (fun he ↦ ?_) List.not_mem_nil id
    cases he
  · rintro (_ | _ | _)
    · rw [hmain]
      trivial
    · rw [hsrc]
      trivial
    · rw [hdst]
      trivial
  · rw [hm, hdst]
    refine iff_of_false (fun he ↦ ?_) (fun he ↦ ?_)
    · cases he
    · cases he

variable [DecidableEq A]

/-- The test starts on a new pool and an empty queue. -/
theorem start_sound {randMax M : Nat} {addrs : List A} {s : Test A addrs.length M}
    (h : (machine randMax addrs M).init s) :
    s.Fresh ∧ Kept addrs M (s.abs (code randMax)) := by
  rcases h with ⟨heap, blocks, cells, q, hb, hc, hq, rfl⟩
  rcases Pool.create_spec hb with ⟨q', hq', hquiet, hcont, hcap⟩
  cases hq.symm.trans hq'
  have hcells : (MsgQueue.unset.resize cells).contents = [] := MsgQueue.contents_resize _ _
  have hfresh : Sys.Fresh
      ({ loc := startPlace, chan := fun c ↦ MsgQueue.Sys.rest (startQue q cells c),
         mem := startMem heap } : Test A addrs.length M) := by
    refine ⟨fun c ↦ ?_, fun c t ↦ rfl⟩
    cases c with
    | pool =>
      have hserves : MsgQueue.Serves q.capacity (MsgQueue.Sys.rest q : MsgQueue.Sys A Thread) :=
        hquiet.serves
      rwa [hcap] at hserves
    | que =>
      have hserves : MsgQueue.Serves (MsgQueue.unset.resize cells).capacity
          (MsgQueue.Sys.rest (MsgQueue.unset.resize cells) : MsgQueue.Sys (Option A) Thread) :=
        (MsgQueue.quiet_resize _ _).serves
      rwa [MsgQueue.capacity_resize, hc] at hserves
  refine ⟨hfresh, sound_start ?_ rfl hcont hcells, ?_⟩
  · funext t
    exact Sys.place_of_idle fun c ↦ hfresh.idle c t
  · rintro (_ | _)
    · exact Nat.le_of_eq (congrArg List.length hcont)
    · exact (Nat.le_of_eq (congrArg List.length hcells)).trans (Nat.zero_le _)

/-- Every run of the test is sound. -/
theorem sound_of_reachable {randMax M : Nat} {addrs : List A} (hd : addrs.Nodup)
    {s : Test A addrs.length M} (h : (machine randMax addrs M).Reachable s) :
    s.Good (code randMax) ∧ Kept addrs M (s.abs (code randMax)) := by
  have hstart (s : Test A addrs.length M) (h : (machine randMax addrs M).init s) :
      s.Fresh ∧ Kept addrs M (s.abs (code randMax)) := start_sound h
  rcases Sys.refines hstart h with ⟨hg, hr⟩
  refine ⟨hg, hr.invariant (fun _ ↦ id) ?_⟩
  rintro s ⟨t, b⟩ s' ⟨hs, hb⟩ hstep
  have he := step_effect hstep
  exact ⟨hs.step hd (((balanced randMax).stock_eq he).trans hs.owned) (step_of_effect he),
    he.length_le hb⟩

/-! ### Where the test stops -/

/-- Where no thread can go on all of them have ended. -/
theorem Sound.stuck {randMax M b : Nat} {addrs : List A} {s : St A} (h : Sound addrs s)
    (hne : addrs ≠ []) (hM : 0 < M)
    (hb : ∀ t, Blocked (Que.cap addrs.length M) s b (code randMax t (s.loc t))) :
    (∀ t, s.loc t = .ended) ∧ s.chan .que = [] := by
  -- the destination can go on with every event that it has or finds
  have hdst : s.loc .dst = .ended := by
    have hblocked := hb .dst
    have hplace := h.places .dst
    cases hl : s.loc .dst with
    | ended => rfl
    | receiving =>
      rw [hl] at hblocked
      have hempty : s.chan .que = [] := hblocked
      have hroom : (s.chan .que).length < M := by rwa [hempty]
      have hsrc := hb .src
      have hof := h.places .src
      cases hr : s.loc .src with
      | timing =>
        rw [hr] at hsrc
        change (if 0 < s.mem.tmrSem then some _ else some _) = none at hsrc
        split at hsrc <;> cases hsrc
      | firing i n =>
        rw [hr] at hsrc
        cases hsrc
      | allocating i n =>
        rw [hr] at hsrc
        have hpool : s.chan .pool = [] := hsrc
        have hall := h.addrs_eq
        rw [hpool, hempty, hl, hr] at hall
        exact absurd ((Multiset.coe_eq_zero addrs).mp hall) hne
      | making i n p =>
        rw [hr] at hsrc
        cases hsrc
      | passing i n p =>
        rw [hr] at hsrc
        exact absurd hroom (Nat.not_lt.mpr hsrc)
      | closing =>
        rw [hr] at hsrc
        exact absurd hroom (Nat.not_lt.mpr hsrc)
      | ended =>
        cases h.phase with
        | running hs => exact absurd hr hs
        | @closed xs _ hp =>
          rw [hempty] at hp
          exact absurd hp.symm (List.append_ne_nil_of_right_ne_nil _ (List.cons_ne_nil _ _))
        | past _ _ hd =>
          rw [hl] at hd
          exact hd.elim
      | _ =>
        rw [hr] at hof
        exact hof.elim
    | received p =>
      rw [hl] at hblocked
      cases p <;> cases hblocked
    | freeing p =>
      rw [hl] at hblocked
      exact absurd (h.pool_lt hl) (Nat.not_lt.mpr hblocked)
    | _ =>
      rw [hl] at hplace
      exact hplace.elim
  have hover : s.loc .src = .ended ∧ s.chan .que = [] := by
    cases h.phase with
    | running _ _ hd =>
      rw [hdst] at hd
      exact absurd trivial hd
    | closed _ _ _ hd =>
      rw [hdst] at hd
      exact absurd trivial hd
    | past hs hp => exact ⟨hs, hp⟩
  refine ⟨?_, hover.2⟩
  rintro (_ | _ | _)
  · have hblocked := hb .main
    have hplace := h.places .main
    cases hl : s.loc .main with
    | ended => rfl
    | input =>
      rw [hl] at hblocked
      cases hblocked
    | joining =>
      rw [hl] at hblocked
      change (if s.mem.done = true then some _ else none) = none at hblocked
      rw [if_pos (h.done.mpr hdst)] at hblocked
      cases hblocked
    | _ =>
      rw [hl] at hplace
      exact hplace.elim
  · exact hover.1
  · exact hdst

/-! ### Runs with the code of the queues -/

/-- Whatever the threads do when, events are reported in the order in which they were made, with
consecutive numbers, and every block is in one place; and where no thread can go on all threads
have ended, all events were reported, and all blocks are back in the pool. -/
theorem events_delivered {randMax M : Nat} {addrs : List A} (hd : addrs.Nodup)
    {s : Test A addrs.length M} (h : (machine randMax addrs M).Reachable s) :
    s.mem.seen <+: s.mem.fired ∧
      s.mem.fired.map Event.ninst = (List.range' 1 s.mem.fired.length).map Int32.ofNat ∧
      Owned addrs (s.abs (code randMax)) ∧
      (addrs ≠ [] → 0 < M → ∀ b, (∀ t, s.step (code randMax) (t, b) = none) →
        (∀ t, (s.abs (code randMax)).loc t = .ended) ∧ s.mem.seen = s.mem.fired ∧
          ((s.chan .pool).q.contents).Perm addrs) := by
  rcases sound_of_reachable hd h with ⟨hg, hs, -⟩
  refine ⟨⟨_, hs.order⟩, hs.ninst, hs.owned, fun hne hM b hnone ↦ ?_⟩
  have hblocked (t : Thread) := step_eq_none_iff.mp (hg.stuck hnone t)
  rcases hs.stuck hne hM hblocked with ⟨hended, hque⟩
  refine ⟨hended, ?_, ?_⟩
  · have horder := hs.order
    rw [pending, hque, hended, hended] at horder
    exact (List.append_nil _).symm.trans horder
  · have hall := hs.addrs_eq
    rw [hque, hended, hended] at hall
    have hperm : ((s.abs (code randMax)).chan .pool).Perm addrs := by
      simpa [Place.held] using hall.symm
    exact hperm

/-- The test before its first step, with `n` blocks and one slot. -/
def begun (n : Nat) : Test Nat (List.range n).length 1 where
  loc := startPlace
  chan c := MsgQueue.Sys.rest (startQue
    ((Pool.create (List.replicate n 0) (List.range n)).getD MsgQueue.unset) [none] c)
  mem := startMem fun _ ↦ { ninst := 0, kind := .error }

/-- So many steps of a thread. -/
def turns (t : Thread) (n : Nat) : List (Thread × Nat) := List.replicate n (t, 0)

/-- One event goes through, and then the test ends. -/
theorem events_delivered_one : ∃ s : Test Nat 1 1, s.mem.fired = [{ ninst := 1, kind := .error }] ∧
    (∀ t, (s.abs (code 32767)).loc t = .ended) ∧ s.mem.seen = s.mem.fired ∧
      ((s.chan .pool).q.contents).Perm [0] := by
  have hinit : (machine 32767 [0] 1).init (begun 1) :=
    ⟨_, [0], [none], _, rfl, rfl, rfl, rfl⟩
  have hsome : ((machine 32767 [0] 1).run (begun 1)
      (turns .src 2 ++ turns .main 1 ++ turns .src 12 ++ turns .dst 10 ++ turns .src 3 ++
        turns .dst 4 ++ turns .main 1)).map (fun s ↦ (s.mem.fired,
          decide (∀ t, (s.step (code 32767) (t, 0)).isNone = true))) =
      some ([{ ninst := 1, kind := .error }], true) := by decide
  rcases Option.map_eq_some_iff.mp hsome with ⟨s, hs, hl⟩
  rcases Prod.mk.inj hl with ⟨hf, hn⟩
  have hnone (t : Thread) : s.step (code 32767) (t, 0) = none :=
    Option.isNone_iff_eq_none.mp (of_decide_eq_true hn t)
  rcases events_delivered (by decide) ((Machine.Reachable.init hinit).run hs) with ⟨-, -, -, hend⟩
  exact ⟨s, hf, hend (by decide) (by decide) 0 hnone⟩

/-! ### The semaphores of the pool -/

theorem atPool {randMax M : Nat} {addrs : List A} {s : Test A addrs.length M}
    (hg : s.Good (code randMax)) (t : Thread) :
    AtPool t (s.phase .pool t) ((s.abs (code randMax)).loc t) := by
  change AtPool t (s.phase .pool t) (s.place (code randMax) t)
  rcases hg.linked t .pool with hp | ⟨v, k, hc, hp⟩ | ⟨k, hc, hp⟩
  · rw [hp]
    exact .outside
  · rw [Sys.place_of_put hc]
    unfold code at hc
    split at hc <;> cases hc
    next hl =>
    rcases hp with hp | hp
    · rw [hp, hl]
      exact .putting
    · rw [hp]
      exact .stored
  · rw [Sys.place_of_get hc]
    unfold code at hc
    split at hc <;> cases hc
    next i n hl =>
    rcases hp with hp | ⟨v, hp⟩
    · rw [hp, hl]
      exact .getting
    · rw [hp]
      exact .fetched

section Pool

variable {randMax M : Nat} {addrs : List A} {s : Test A addrs.length M}

/-- Blocks that are in the pool, in the queue, and with the threads. -/
theorem card_addrs (hg : s.Good (code randMax)) (hs : Sound addrs (s.abs (code randMax))) :
    addrs.length = (s.chan .pool).q.sz +
      (((s.abs (code randMax)).chan .que).map bag).sum.card +
      ((bag ((s.abs (code randMax)).loc .src).held).card +
        (bag ((s.abs (code randMax)).loc .dst).held).card) := by
  have hserves : MsgQueue.Serves addrs.length (s.chan .pool) := hg.inv .pool
  have hcard := congrArg Multiset.card hs.addrs_eq
  simp only [Multiset.card_add, Multiset.coe_card] at hcard
  refine hcard.trans ?_
  rw [← hserves.length_contents]
  rfl

/-- A thread that waits for room in the pool finds a token of its semaphore. -/
theorem slotSem_pos (hg : s.Good (code randMax)) (hs : Sound addrs (s.abs (code randMax)))
    {t : Thread} {m : MsgQueue.Mode} {v : A} (hp : (s.chan .pool).pc t = .putWait m v) :
    0 < (s.chan .pool).q.slotSem := by
  have hserves : MsgQueue.Serves addrs.length (s.chan .pool) := hg.inv .pool
  have hat (u : Thread) : AtPool u ((s.chan .pool).pc u).phase ((s.abs (code randMax)).loc u) :=
    atPool hg u
  have hcard := card_addrs hg hs
  have hslots := hserves.inv.slots
  have hcap := hserves.capacity_eq
  obtain ⟨rfl, hheld⟩ : t = .dst ∧ (bag ((s.abs (code randMax)).loc t).held).card = 1 := by
    have htat := hat t
    rw [hp] at htat
    generalize (s.abs (code randMax)).loc t = l at htat
    cases htat with
    | putting => exact ⟨rfl, rfl⟩
  have hmain := (hat .main).flight_main
  have hsrc := (hat .src).slotFlight_le
  rw [total, sum_thread, hmain.1, hp] at hslots
  change _ + (0 + (_ + (0 + 0))) = _ at hslots
  omega

/-- A thread that waits for a block of the pool finds a token, if there are enough blocks. -/
theorem dataSem_pos (hg : s.Good (code randMax)) (hs : Kept addrs M (s.abs (code randMax)))
    (hM : M + 2 ≤ addrs.length) {t : Thread} {m : MsgQueue.Mode}
    (hp : (s.chan .pool).pc t = .getWait m) : 0 < (s.chan .pool).q.dataSem := by
  have hserves : MsgQueue.Serves addrs.length (s.chan .pool) := hg.inv .pool
  have hat (u : Thread) : AtPool u ((s.chan .pool).pc u).phase ((s.abs (code randMax)).loc u) :=
    atPool hg u
  have hcard := card_addrs hg hs.1
  have hdatas := hserves.inv.datas
  obtain ⟨rfl, hheld⟩ : t = .src ∧ (bag ((s.abs (code randMax)).loc t).held).card = 0 := by
    have htat := hat t
    rw [hp] at htat
    generalize (s.abs (code randMax)).loc t = l at htat
    cases htat with
    | getting => exact ⟨rfl, rfl⟩
  have hmain := (hat .main).flight_main
  have hdst := (hat .dst).dataFlight_add_le
  have hque := card_sum_bag_le ((s.abs (code randMax)).chan .que)
  have hroom := hs.2 .que
  change ((s.abs (code randMax)).chan .que).length ≤ M at hroom
  rw [total, sum_thread, hmain.2, hp] at hdatas
  change _ + (0 + (0 + (_ + 0))) = _ at hdatas
  omega

end Pool

/-- Deleting an event never has to wait for the pool, nor does making one, if the pool has at least
two blocks more than the queue has slots: not with an atomic queue, and not at the semaphores of the
code. -/
theorem pool_never_waits {randMax M : Nat} {addrs : List A} (hd : addrs.Nodup)
    {s : Test A addrs.length M} (h : (machine randMax addrs M).Reachable s) :
    ((∀ p, (s.abs (code randMax)).loc .dst = .freeing p →
        ((s.abs (code randMax)).chan .pool).length < addrs.length) ∧
      (M + 2 ≤ addrs.length → ∀ i n, (s.abs (code randMax)).loc .src = .allocating i n →
        (s.abs (code randMax)).chan .pool ≠ [])) ∧
      (∀ t m v, (s.chan .pool).pc t = .putWait m v → 0 < (s.chan .pool).q.slotSem) ∧
      (M + 2 ≤ addrs.length → ∀ t m, (s.chan .pool).pc t = .getWait m →
        0 < (s.chan .pool).q.dataSem) := by
  rcases sound_of_reachable hd h with ⟨hg, hs, hlen⟩
  refine ⟨⟨fun p ↦ hs.pool_lt, fun hM i n hp hpool ↦ ?_⟩, fun t m v ↦ slotSem_pos hg hs,
    fun hM t m ↦ dataSem_pos hg ⟨hs, hlen⟩ hM⟩
  have hsrc : ((s.abs (code randMax)).loc .src).held = none := by
    rw [hp]
    rfl
  have hcard := congrArg Multiset.card hs.addrs_eq
  rw [hpool, hsrc] at hcard
  simp only [bag_none, Multiset.card_add, Multiset.coe_card, Multiset.card_zero,
    List.length_nil] at hcard
  have hque := card_sum_bag_le ((s.abs (code randMax)).chan .que)
  have hcap := hlen .que
  have hdst := card_bag_le ((s.abs (code randMax)).loc .dst).held
  change ((s.abs (code randMax)).chan .que).length ≤ M at hcap
  omega

theorem pool_never_waits_three : ∃ s : Test Nat 3 1, (s.chan .pool).pc .src = .getWait .block ∧
    (s.abs (code 32767)).chan .pool ≠ [] ∧ 0 < (s.chan .pool).q.dataSem := by
  have hinit : (machine 32767 [0, 1, 2] 1).init (begun 3) :=
    ⟨_, [0, 0, 0], [none], _, rfl, rfl, rfl, rfl⟩
  have hsome : ((machine 32767 [0, 1, 2] 1).run (begun 3) (turns .src 3)).map
      (fun s ↦ ((s.abs (code 32767)).loc .src, (s.chan .pool).pc .src)) =
      some (.allocating 0 1, .getWait .block) := by decide
  rcases Option.map_eq_some_iff.mp hsome with ⟨s, hs, hl⟩
  rcases Prod.mk.inj hl with ⟨hplace, hpc⟩
  obtain ⟨⟨-, hpool⟩, -, hsem⟩ :=
    pool_never_waits (by decide) ((Machine.Reachable.init hinit).run hs)
  exact ⟨s, hpc, hpool (by decide) 0 1 hplace, hsem (by decide) _ _ hpc⟩

end CtrlrFx.Os.EvtTest
