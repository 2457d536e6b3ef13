import CtrlrFx.Os.BufPool

/-!
# Pools

`CtrlrFx/ObjPool.h`, `CtrlrFx/os/generic/CtrlrFx/MemPool.h`: a message queue of the addresses
that are free, filled by the constructor. Threads take addresses out and put back those that they
hold, each of them whenever it likes.
-/

namespace CtrlrFx.Os.Pool
open Base

variable {A Tid : Type}

/-! ### Constructors -/

/-- Puts the addresses one after the other; `CtrlrFx/ObjPool.h:56–68`. -/
def putAll (q : MsgQueue A) : List A → Option (MsgQueue A)
  | [] => some q
  | a :: as => (q.putAlone a).bind fun q' ↦ putAll q' as

/-- A queue on new `cells` that holds the addresses. -/
def create (cells addrs : List A) : Option (MsgQueue A) :=
  putAll (MsgQueue.unset.resize cells) addrs

/-- Addresses of the blocks of a pool of `n` times `sz` items at `arr`. The index of a block is
a 64-bit `size_t`; `CtrlrFx/os/generic/CtrlrFx/MemPool.h:55–60`. -/
def blockAddrs (arr n sz : Nat) : List Nat :=
  (List.range n).map fun i ↦ arr + i * sz % 2 ^ 64

/-- Number of items of the array that is allocated for these blocks, a `size_t` as well;
`CtrlrFx/os/generic/CtrlrFx/MemPool.h:57`. -/
def arrayLength (n sz : Nat) : Nat := n * sz % 2 ^ 64

/-- Filling a queue that has room never blocks. -/
theorem putAll_spec {q : MsgQueue A} {as : List A} (h : q.Quiet)
    (hr : q.contents.length + as.length ≤ q.capacity) :
    ∃ q', putAll q as = some q' ∧ q'.Quiet ∧ q'.contents = q.contents ++ as ∧
      q'.capacity = q.capacity := by
  induction as generalizing q with
  | nil => exact ⟨q, rfl, h, (List.append_nil _).symm, rfl⟩
  | cons a as ih =>
    rw [List.length_cons] at hr
    rcases h.putAlone a (by omega) with ⟨q₁, hq, hqq, hqc, hqcap⟩
    have hr' : q₁.contents.length + as.length ≤ q₁.capacity := by
      rw [hqc, hqcap, List.length_append, List.length_singleton]
      omega
    rcases ih hqq hr' with ⟨q₂, hp, hpq, hpc, hpcap⟩
    refine ⟨q₂, ?_, hpq, ?_, hpcap.trans hqcap⟩
    · rw [putAll, hq, Option.bind_some, hp]
    · rw [hpc, hqc, List.append_assoc, List.singleton_append]

/-- A new pool has its addresses in the queue. -/
theorem create_spec {cells addrs : List A} (hc : cells.length = addrs.length) :
    ∃ q, create cells addrs = some q ∧ q.Quiet ∧ q.contents = addrs ∧
      q.capacity = addrs.length := by
  rcases putAll_spec (MsgQueue.quiet_resize MsgQueue.unset cells) (MsgQueue.room_resize _ hc) with
    ⟨q, hq, hqq, hqc, hqcap⟩
  refine ⟨q, hq, hqq, ?_, ?_⟩
  · rw [hqc, MsgQueue.contents_resize, List.nil_append]
  · rw [hqcap, MsgQueue.capacity_resize, hc]

/-! ### Threads on a pool -/

/-- The queue with its threads, and the addresses that each of them holds. -/
structure Sys (A Tid : Type) where
  que : MsgQueue.Sys A Tid
  held : Tid → List A

/-- Calls of the threads, which wait in any of the ways the queue offers, and their steps. -/
inductive Act (A Tid : Type) where
  | get (t : Tid) (m : MsgQueue.Mode)
  | put (t : Tid) (m : MsgQueue.Mode) (v : A)
  | go (t : Tid)
  | giveUp (t : Tid)

variable [DecidableEq Tid]

namespace Sys

/-- Thread `t` holds one more. -/
def hold (s : Sys A Tid) (t : Tid) (v : A) : Sys A Tid :=
  { s with held := Function.update s.held t (v :: s.held t) }

/-- A thread goes on, and holds what it gets once `get` has returned. -/
def go (s : Sys A Tid) (t : Tid) : Option (Sys A Tid) :=
  (s.que.go t).map fun q ↦
    match s.que.pc t with
    | .getPost v => { s with que := q }.hold t v
    | _ => { s with que := q }

/-- A thread gives up waiting, and still holds what it was about to put. -/
def giveUp (s : Sys A Tid) (t : Tid) : Option (Sys A Tid) :=
  (s.que.giveUp t).map fun q ↦
    match s.que.pc t with
    | .putWait _ v => { s with que := q }.hold t v
    | _ => { s with que := q }

variable [DecidableEq A]

/-- A thread puts back something that it holds. -/
def put (s : Sys A Tid) (t : Tid) (m : MsgQueue.Mode) (v : A) : Option (Sys A Tid) :=
  if v ∈ s.held t then
    (s.que.call t (.put m v)).map fun q ↦
      { que := q, held := Function.update s.held t ((s.held t).erase v) }
  else none

/-- One step. -/
def step (s : Sys A Tid) : Act A Tid → Option (Sys A Tid)
  | .get t m => (s.que.call t (.get m)).map fun q ↦ { s with que := q }
  | .put t m v => s.put t m v
  | .go t => s.go t
  | .giveUp t => s.giveUp t

end Sys

/-- A pool that no thread has used. -/
def start (q : MsgQueue A) : Sys A Tid where
  que := { q := q, pc := fun _ ↦ .idle, events := q.contents.map Fifo.Event.enq }
  held := fun _ ↦ []

/-- Pools of these addresses. -/
def machine (Tid : Type) [DecidableEq A] [DecidableEq Tid] (addrs : List A) :
    Machine (Sys A Tid) (Act A Tid) where
  init s := ∃ cells q, cells.length = addrs.length ∧ create cells addrs = some q ∧ s = start q
  step := Sys.step

/-! ### Every address is in one place -/

/-- What a thread carries into the queue or out of it. -/
def carried : MsgQueue.Pc A → List A
  | .putWait _ v | .putLocked v | .getPost v => [v]
  | _ => []

/-- What a thread holds or carries. -/
def Sys.hands (s : Sys A Tid) (t : Tid) : List A := carried (s.que.pc t) ++ s.held t

/-- Sum of a weight over a list. -/
def weigh (w : A → Nat) (l : List A) : Nat := (l.map w).sum

theorem weigh_append (w : A → Nat) (l l' : List A) :
    weigh w (l ++ l') = weigh w l + weigh w l' := by
  simp [weigh]

theorem weigh_cons (w : A → Nat) (a : A) (l : List A) :
    weigh w (a :: l) = w a + weigh w l := by
  simp [weigh]

theorem weigh_singleton (w : A → Nat) (a : A) : weigh w [a] = w a := by
  simp [weigh]

theorem weigh_erase [DecidableEq A] (w : A → Nat) {a : A} {l : List A} (h : a ∈ l) :
    w a + weigh w (l.erase a) = weigh w l := by
  rw [← weigh_cons]
  exact ((List.perm_cons_erase h).map w).sum_nat.symm

theorem weigh_one (l : List A) : weigh (fun _ ↦ 1) l = l.length := by
  simp [weigh]

theorem weigh_count [DecidableEq A] (a : A) (l : List A) :
    weigh (fun b ↦ if b = a then 1 else 0) l = l.count a := by
  induction l with
  | nil => rfl
  | cons b l ih =>
    rw [weigh_cons, ih, List.count_cons, Nat.add_comm]
    congr 1
    by_cases hb : b = a
    · rw [if_pos hb, if_pos (beq_iff_eq.mpr hb)]
    · rw [if_neg hb, if_neg (by simpa using hb)]

/-- What a thread holds once the call that it is about to leave has returned. -/
def returned : MsgQueue.Pc A → List A
  | .getPost v => [v]
  | _ => []

/-- A step of a thread on the queue passes an address between the queue and the thread, or
leaves it where it is. -/
theorem go_effect [Fintype Tid] {s s' : MsgQueue.Sys A Tid} {t : Tid} (h : MsgQueue.Inv s)
    (hg : s.go t = some s') :
    s'.q.capacity = s.q.capacity ∧ ∃ p, s'.pc = Function.update s.pc t p ∧
      ∀ w : A → Nat, weigh w s'.q.contents + weigh w (carried p) +
        weigh w (returned (s.pc t)) = weigh w s.q.contents + weigh w (carried (s.pc t)) := by
  have hidle : ∀ w : A → Nat, weigh w [] = 0 := fun _ ↦ rfl
  unfold MsgQueue.Sys.go at hg
  cases hp : s.pc t with
  | idle => simp [hp] at hg
  | putWait m v =>
    simp only [hp] at hg
    split at hg
    · cases hg
    · cases hg
      exact ⟨rfl, _, rfl, fun _ ↦ rfl⟩
  | putLocked v =>
    simp only [hp] at hg
    cases hg
    refine ⟨MsgQueue.capacity_doPut _ v, _, rfl, ?_⟩
    intro w
    have hc := MsgQueue.contents_doPut v h.wf (h.room hp)
    simp only [MsgQueue.Sys.q_moveTo, hc, carried, returned, weigh_append, hidle, Nat.add_zero]
  | putPost =>
    simp only [hp] at hg
    cases hg
    exact ⟨rfl, _, rfl, fun _ ↦ rfl⟩
  | getWait m =>
    simp only [hp] at hg
    split at hg
    · cases hg
    · cases hg
      exact ⟨rfl, _, rfl, fun _ ↦ rfl⟩
  | getLocked =>
    simp only [hp] at hg
    rcases Option.map_eq_some_iff.mp hg with ⟨⟨v, q⟩, hd, rfl⟩
    rcases MsgQueue.doGet_spec h.wf (h.unread hp) with ⟨v', q', hd', hc, -, hcap, -⟩
    rw [hd] at hd'
    cases hd'
    refine ⟨hcap, _, rfl, ?_⟩
    intro w
    simp only [MsgQueue.Sys.q_moveTo, hc, carried, returned, weigh_cons, hidle]
    omega
  | getPost v =>
    simp only [hp] at hg
    cases hg
    exact ⟨rfl, _, rfl, fun _ ↦ rfl⟩
  | peekTest =>
    simp only [hp] at hg
    cases hg
    refine ⟨rfl, _, rfl, ?_⟩
    intro w
    split <;> rfl
  | peekLocked =>
    simp only [hp] at hg
    split at hg
    · rcases Option.map_eq_some_iff.mp hg with ⟨v, -, rfl⟩
      exact ⟨rfl, _, rfl, fun _ ↦ rfl⟩
    · cases hg
      exact ⟨rfl, _, rfl, fun _ ↦ rfl⟩

/-- The queue keeps its accounts, and the queue and the hands of all threads have together what
the pool was built with, whatever the addresses weigh. -/
structure Inv [Fintype Tid] (addrs : List A) (s : Sys A Tid) : Prop where
  queue : MsgQueue.Inv s.que
  capacity_eq : s.que.q.capacity = addrs.length
  placed : ∀ w : A → Nat,
    weigh w s.que.q.contents + total (weigh w) s.hands = weigh w addrs

variable [Fintype Tid]

omit [DecidableEq Tid] in
theorem inv_start {q : MsgQueue A} {addrs : List A} (h : q.Quiet) (hc : q.contents = addrs)
    (hcap : q.capacity = addrs.length) : Inv addrs (start q : Sys A Tid) := by
  have hl := MsgQueue.length_contents h.wf
  have hs : total MsgQueue.slotFlight (fun _ : Tid ↦ (MsgQueue.Pc.idle : MsgQueue.Pc A)) = 0 :=
    total_const_zero _ _ rfl
  have hd : total MsgQueue.dataFlight (fun _ : Tid ↦ (MsgQueue.Pc.idle : MsgQueue.Pc A)) = 0 :=
    total_const_zero _ _ rfl
  refine ⟨⟨h.wf, Fifo.Run.of_length_le (by rw [hl]; exact h.wf.sz_le), ?_, ?_⟩, hcap, ?_⟩
  · show q.sz + q.slotSem + total MsgQueue.slotFlight (fun _ : Tid ↦ MsgQueue.Pc.idle) =
      q.capacity
    rw [hs, Nat.add_zero, h.slots]
  · show q.dataSem + total MsgQueue.dataFlight (fun _ : Tid ↦ MsgQueue.Pc.idle) = q.sz
    rw [hd, Nat.add_zero, h.datas]
  · intro w
    have hz : total (weigh w) (fun _ : Tid ↦ ([] : List A)) = 0 := total_const_zero _ _ rfl
    show weigh w q.contents + total (weigh w) (fun _ : Tid ↦ ([] : List A)) = _
    rw [hz, hc, Nat.add_zero]

/-- A step of one thread that keeps the weight of the queue and its hands together. -/
theorem Inv.move {addrs : List A} {s s' : Sys A Tid} (h : Inv addrs s) (t : Tid)
    (hq : MsgQueue.Inv s'.que) (hc : s'.que.q.capacity = s.que.q.capacity)
    (hu : ∀ u, u ≠ t → s'.hands u = s.hands u)
    (hw : ∀ w : A → Nat, weigh w s'.que.q.contents + weigh w (s'.hands t) =
      weigh w s.que.q.contents + weigh w (s.hands t)) : Inv addrs s' where
  queue := hq
  capacity_eq := hc.trans h.capacity_eq
  placed := by
    intro w
    have he : s'.hands = Function.update s.hands t (s'.hands t) := by
      funext u
      by_cases hut : u = t
      · rw [hut, Function.update_self]
      · rw [Function.update_of_ne hut, hu u hut]
    have ht := total_update (weigh w) s.hands t (s'.hands t)
    rw [← he] at ht
    have hp := h.placed w
    have hw' := hw w
    omega

omit [Fintype Tid] in
theorem hands_update {s s' : Sys A Tid} {t u : Tid} {p : MsgQueue.Pc A} {l : List A}
    (hp : s'.que.pc = Function.update s.que.pc t p) (hl : s'.held = Function.update s.held t l)
    (hu : u ≠ t) : s'.hands u = s.hands u := by
  rw [Sys.hands, hp, hl, Function.update_of_ne hu, Function.update_of_ne hu, Sys.hands]

omit [Fintype Tid] in
theorem hands_update_self {s' : Sys A Tid} {f : Tid → MsgQueue.Pc A} {g : Tid → List A} {t : Tid}
    {p : MsgQueue.Pc A} {l : List A} (hp : s'.que.pc = Function.update f t p)
    (hl : s'.held = Function.update g t l) : s'.hands t = carried p ++ l := by
  rw [Sys.hands, hp, hl, Function.update_self, Function.update_self]

/-- A thread goes on, and its hands and the queue keep what they have together. -/
theorem Inv.go {addrs : List A} {s s' : Sys A Tid} {t : Tid} (h : Inv addrs s)
    (hs : s.go t = some s') : Inv addrs s' := by
  rcases Option.map_eq_some_iff.mp hs with ⟨q, hq, rfl⟩
  rcases go_effect h.queue hq with ⟨hcap, p, hp, hw⟩
  have hheld : ∀ l, s.held = Function.update s.held t l ↔ s.held t = l := by
    intro l
    rw [eq_comm, Function.update_eq_self_iff, eq_comm]
  have hne : (∀ v, s.que.pc t ≠ .getPost v) → returned (s.que.pc t) = [] := by
    intro hn
    cases hpc : s.que.pc t <;> first | rfl | exact absurd hpc (hn _)
  split
  · next v hpc =>
    have hl : ({ s with que := q }.hold t v).held = Function.update s.held t (v :: s.held t) :=
      rfl
    refine h.move t (h.queue.go hq) hcap (fun u hu ↦ hands_update hp hl hu) ?_
    intro w
    have hwt := hw w
    have hv : weigh w (returned (.getPost v)) = w v := weigh_singleton w v
    rw [hpc, hv] at hwt
    rw [hands_update_self hp hl, Sys.hands, hpc, weigh_append, weigh_append, weigh_cons]
    show weigh w q.q.contents + _ = _
    omega
  · next hn =>
    have hl : ({ s with que := q } : Sys A Tid).held = Function.update s.held t (s.held t) :=
      (hheld _).mpr rfl
    refine h.move t (h.queue.go hq) hcap (fun u hu ↦ hands_update hp hl hu) ?_
    intro w
    have hwt := hw w
    rw [hne hn] at hwt
    rw [hands_update_self hp hl, Sys.hands, weigh_append, weigh_append]
    have hz : weigh w ([] : List A) = 0 := rfl
    show weigh w q.q.contents + _ = _
    omega

/-- A thread gives up, with what it was about to put still in its hands. -/
theorem Inv.giveUp {addrs : List A} {s s' : Sys A Tid} {t : Tid} (h : Inv addrs s)
    (hs : s.giveUp t = some s') : Inv addrs s' := by
  rcases Option.map_eq_some_iff.mp hs with ⟨q, hq, rfl⟩
  have hqi : MsgQueue.Inv q := h.queue.step (a := .giveUp t) hq
  have hpc := (MsgQueue.Sys.giveUp_eq hq).1
  have hp : q.pc = Function.update s.que.pc t .idle := by rw [hpc, MsgQueue.Sys.moveTo]
  have hqq : q.q = s.que.q := by rw [hpc, MsgQueue.Sys.moveTo]
  have hnil : carried (MsgQueue.Pc.idle : MsgQueue.Pc A) = [] := rfl
  split
  · next m v hpv =>
    have hl : ({ s with que := q }.hold t v).held = Function.update s.held t (v :: s.held t) :=
      rfl
    refine h.move t hqi (congrArg _ hqq) (fun u hu ↦ hands_update hp hl hu) ?_
    intro w
    rw [hands_update_self hp hl, Sys.hands, hpv, hnil]
    show weigh w q.q.contents + _ = _
    rw [hqq]
    rfl
  · next hn =>
    have hl : ({ s with que := q } : Sys A Tid).held = Function.update s.held t (s.held t) :=
      (Function.update_eq_self t s.held).symm
    have hc : carried (s.que.pc t) = [] := by
      unfold MsgQueue.Sys.giveUp at hq
      cases hpt : s.que.pc t <;> rw [hpt] at hq <;>
        first | rfl | exact absurd hpt (hn _ _) | cases hq
    refine h.move t hqi (congrArg _ hqq) (fun u hu ↦ hands_update hp hl hu) ?_
    intro w
    rw [hands_update_self hp hl, Sys.hands, hc, hnil]
    show weigh w q.q.contents + _ = _
    rw [hqq]

omit [Fintype Tid] in
/-- Only an idle thread calls. -/
theorem call_cases {s s' : MsgQueue.Sys A Tid} {t : Tid} {op : MsgQueue.Op A}
    (h : s.call t op = some s') :
    s.pc t = .idle ∧ ∃ p, s' = s.moveTo t p ∧
      carried p = match op with
        | .put _ v => [v]
        | _ => [] := by
  have hidle := (MsgQueue.Sys.call_eq h).1
  cases op with
  | put m v =>
    simp only [MsgQueue.Sys.call, hidle, Option.some.injEq] at h
    exact ⟨hidle, .putWait m v, h.symm, rfl⟩
  | get m =>
    simp only [MsgQueue.Sys.call, hidle, Option.some.injEq] at h
    exact ⟨hidle, .getWait m, h.symm, rfl⟩
  | peek =>
    simp only [MsgQueue.Sys.call, hidle, Option.some.injEq] at h
    exact ⟨hidle, .peekTest, h.symm, rfl⟩

theorem Inv.get {addrs : List A} {s : Sys A Tid} {q : MsgQueue.Sys A Tid} {t : Tid}
    {m : MsgQueue.Mode} (h : Inv addrs s) (hq : s.que.call t (.get m) = some q) :
    Inv addrs { s with que := q } := by
  have hqi : MsgQueue.Inv q := h.queue.step (a := .call t (.get m)) hq
  rcases call_cases hq with ⟨hidle, p, rfl, hcar⟩
  have hp : (s.que.moveTo t p).pc = Function.update s.que.pc t p := rfl
  have hl : ({ s with que := s.que.moveTo t p } : Sys A Tid).held =
      Function.update s.held t (s.held t) := (Function.update_eq_self t s.held).symm
  refine h.move t hqi rfl (fun u hu ↦ hands_update hp hl hu) ?_
  intro w
  rw [hands_update_self hp hl, Sys.hands, hidle, hcar]
  rfl

theorem Inv.put [DecidableEq A] {addrs : List A} {s s' : Sys A Tid} {t : Tid}
    {m : MsgQueue.Mode} {v : A} (h : Inv addrs s) (hs : s.put t m v = some s') :
    Inv addrs s' := by
  simp only [Sys.put, Option.ite_none_right_eq_some, Option.map_eq_some_iff] at hs
  rcases hs with ⟨hv, q, hq, rfl⟩
  have hqi : MsgQueue.Inv q := h.queue.step (a := .call t (.put m v)) hq
  rcases call_cases hq with ⟨hidle, p, rfl, hcar⟩
  have hp : (s.que.moveTo t p).pc = Function.update s.que.pc t p := rfl
  have hl : Function.update s.held t ((s.held t).erase v) =
      Function.update s.held t ((s.held t).erase v) := rfl
  refine h.move t hqi rfl (fun u hu ↦ hands_update hp hl hu) ?_
  intro w
  have hnil : carried (MsgQueue.Pc.idle : MsgQueue.Pc A) = [] := rfl
  rw [hands_update_self hp hl, Sys.hands, hidle, hcar, hnil, List.singleton_append,
    List.nil_append, weigh_cons, weigh_erase w hv]
  rfl

theorem Inv.step [DecidableEq A] {addrs : List A} {s s' : Sys A Tid} {a : Act A Tid}
    (h : Inv addrs s) (hs : s.step a = some s') : Inv addrs s' := by
  cases a with
  | get t m =>
    rcases Option.map_eq_some_iff.mp hs with ⟨q, hq, rfl⟩
    exact h.get hq
  | put t m v => exact h.put hs
  | go t => exact h.go hs
  | giveUp t => exact h.giveUp hs

theorem inv_of_reachable [DecidableEq A] {addrs : List A} {s : Sys A Tid}
    (h : (machine Tid addrs).Reachable s) : Inv addrs s := by
  apply h.invariant (I := Inv addrs)
  · rintro _ ⟨cells, q, hc, hq, rfl⟩
    rcases create_spec hc with ⟨q', hq', hquiet, hcont, hcap⟩
    rw [hq] at hq'
    cases hq'
    exact inv_start hquiet hcont hcap
  · intro s a s' hi hs
    exact hi.step hs

/-! ### What pools promise -/

/-- No address is in two hands, nor in a hand and in the queue, none gets lost, and whoever puts
one back finds a slot. -/
structure Exclusive (addrs : List A) (s : Sys A Tid) : Prop where
  one_holder : ∀ t u a, a ∈ s.hands t → a ∈ s.hands u → t = u
  held_once : ∀ t, (s.hands t).Nodup
  not_queued : ∀ t a, a ∈ s.hands t → a ∉ s.que.q.contents
  queued_once : s.que.q.contents.Nodup
  number : s.que.q.contents.length + total List.length s.hands = addrs.length
  from_pool : ∀ t a, a ∈ s.hands t → a ∈ addrs
  has_room : ∀ t m v, s.que.pc t = .putWait m v → 0 < s.que.q.slotSem

section

variable [DecidableEq A] {addrs : List A} {s : Sys A Tid}

omit [DecidableEq Tid] in
/-- How often an address occurs in all places. -/
theorem Inv.count (h : Inv addrs s) (a : A) :
    s.que.q.contents.count a + total (fun l ↦ l.count a) s.hands = addrs.count a := by
  have hp := h.placed fun b ↦ if b = a then 1 else 0
  have hw : weigh (fun b ↦ if b = a then 1 else 0) = fun l ↦ l.count a :=
    funext fun l ↦ weigh_count a l
  rwa [hw] at hp

omit [DecidableEq Tid] in
theorem Inv.count_hands_le (h : Inv addrs s) (t : Tid) (a : A) :
    s.que.q.contents.count a + (s.hands t).count a ≤ addrs.count a := by
  have hc := h.count a
  have hl := le_total (fun l : List A ↦ l.count a) s.hands t
  omega

omit [DecidableEq Tid] [DecidableEq A] in
/-- A thread that waits for a slot carries an address for which there must be one. -/
theorem Inv.has_room (h : Inv addrs s) {t : Tid} {m : MsgQueue.Mode} {v : A}
    (hp : s.que.pc t = .putWait m v) : 0 < s.que.q.slotSem := by
  have hw : weigh (fun _ : A ↦ 1) = List.length := funext weigh_one
  have hn := h.placed fun _ ↦ 1
  rw [hw, MsgQueue.length_contents h.queue.wf] at hn
  have hs := h.queue.slots
  have hcap := h.capacity_eq
  have hlt : total MsgQueue.slotFlight s.que.pc < total List.length s.hands := by
    apply Finset.sum_lt_sum
    · intro u _
      show MsgQueue.slotFlight (s.que.pc u) ≤ (carried (s.que.pc u) ++ s.held u).length
      rw [List.length_append]
      cases s.que.pc u <;> simp [MsgQueue.slotFlight, carried]
    · refine ⟨t, Finset.mem_univ t, ?_⟩
      show MsgQueue.slotFlight (s.que.pc t) < (carried (s.que.pc t) ++ s.held t).length
      rw [hp]
      simp [MsgQueue.slotFlight, carried]
  omega

theorem Inv.exclusive (h : Inv addrs s) (hn : addrs.Nodup) : Exclusive addrs s := by
  have hone : ∀ a, addrs.count a ≤ 1 := List.nodup_iff_count_le_one.mp hn
  constructor
  · intro t u a ht hu
    by_contra hne
    have h2 := add_le_total (fun l : List A ↦ l.count a) s.hands hne
    have hc := h.count a
    have h1 := hone a
    have hct := List.count_pos_iff.mpr ht
    have hcu := List.count_pos_iff.mpr hu
    omega
  · intro t
    rw [List.nodup_iff_count_le_one]
    intro a
    have hc := h.count_hands_le t a
    have h1 := hone a
    omega
  · intro t a ht hq
    have hc := h.count_hands_le t a
    have h1 := hone a
    have hct := List.count_pos_iff.mpr ht
    have hcq := List.count_pos_iff.mpr hq
    omega
  · rw [List.nodup_iff_count_le_one]
    intro a
    have hc := h.count a
    have h1 := hone a
    omega
  · have hp := h.placed fun _ ↦ 1
    have hw : weigh (fun _ : A ↦ 1) = List.length := funext weigh_one
    rw [hw] at hp
    exact hp
  · intro t a ht
    have hc := h.count_hands_le t a
    have hct := List.count_pos_iff.mpr ht
    exact List.count_pos_iff.mp (by omega)
  · intro t m v hp
    exact h.has_room hp

omit [DecidableEq Tid] [DecidableEq A] in
/-- Idle threads have nothing in flight, so that every unread address has its token. -/
theorem Inv.dataSem_of_idle (h : Inv addrs s) (hpc : s.que.pc = fun _ ↦ .idle) :
    s.que.q.dataSem = s.que.q.contents.length := by
  have hd := h.queue.datas
  rw [hpc, total_const_zero MsgQueue.dataFlight _ rfl, Nat.add_zero] at hd
  rw [hd, MsgQueue.length_contents h.queue.wf]

omit [Fintype Tid] in
theorem step_get {t : Tid} (m : MsgQueue.Mode) (hp : s.que.pc t = .idle) :
    ∃ s', s.step (.get t m) = some s' ∧ s'.que.q = s.que.q ∧ s'.held = s.held ∧
      s'.que.pc = Function.update s.que.pc t (.getWait m) := by
  refine ⟨⟨s.que.moveTo t (.getWait m), s.held⟩, ?_, rfl, rfl, rfl⟩
  simp only [Sys.step, MsgQueue.Sys.call, hp, Option.map_some]

omit [Fintype Tid] in
/-- The wait takes a token and leaves the ring as it is. -/
theorem step_getWait {t : Tid} {m : MsgQueue.Mode} (hp : s.que.pc t = .getWait m)
    (hd : s.que.q.dataSem ≠ 0) :
    ∃ s', s.step (.go t) = some s' ∧ s'.que.q.contents = s.que.q.contents ∧
      (s.que.q.WF → s'.que.q.WF) ∧ s'.que.q.sz = s.que.q.sz ∧ s'.held = s.held ∧
      s'.que.pc = Function.update s.que.pc t .getLocked := by
  refine ⟨⟨{ s.que with q := { s.que.q with dataSem := s.que.q.dataSem - 1 } }.moveTo t .getLocked,
    s.held⟩, ?_, rfl, fun h ↦ ⟨h.put_eq, h.get_lt, h.sz_le⟩, rfl, rfl, rfl⟩
  simp only [Sys.step, Sys.go, MsgQueue.Sys.go, hp, hd, if_false, Option.map_some]

omit [Fintype Tid] in
theorem step_getLocked {t : Tid} {v : A} {q : MsgQueue A} (hp : s.que.pc t = .getLocked)
    (hd : s.que.q.doGet = some (v, q)) :
    ∃ s', s.step (.go t) = some s' ∧ s'.que.q = q ∧ s'.held = s.held ∧
      s'.que.pc = Function.update s.que.pc t (.getPost v) := by
  refine ⟨⟨MsgQueue.Sys.moveTo ⟨q, s.que.pc, s.que.events ++ [.deq v]⟩ t (.getPost v), s.held⟩, ?_,
    rfl, rfl, rfl⟩
  simp only [Sys.step, Sys.go, MsgQueue.Sys.go, hp, hd, Option.map_some]

omit [Fintype Tid] in
theorem step_getPost {t : Tid} {v : A} (hp : s.que.pc t = .getPost v) :
    ∃ s', s.step (.go t) = some s' ∧ s'.que.q.contents = s.que.q.contents ∧
      s'.held = Function.update s.held t (v :: s.held t) ∧
      s'.que.pc = Function.update s.que.pc t .idle := by
  refine ⟨Sys.hold ⟨{ s.que with q := { s.que.q with slotSem := s.que.q.slotSem + 1 } }.moveTo t
    .idle, s.held⟩ t v, ?_, rfl, rfl, rfl⟩
  simp only [Sys.step, Sys.go, MsgQueue.Sys.go, hp, Option.map_some]

/-- A thread takes the first address, while no other is in a call. -/
theorem run_get (h : Inv addrs s) (hpc : s.que.pc = fun _ ↦ .idle) (t : Tid) {a : A}
    {as : List A} (hc : s.que.q.contents = a :: as) :
    ∃ s', (machine Tid addrs).run s [.get t .block, .go t, .go t, .go t] = some s' ∧
      s'.que.pc = (fun _ ↦ .idle) ∧ s'.que.q.contents = as ∧
      s'.held = Function.update s.held t (a :: s.held t) := by
  have hsem : s.que.q.dataSem ≠ 0 := by
    rw [h.dataSem_of_idle hpc, hc]
    exact Nat.succ_ne_zero _
  have hsz : 0 < s.que.q.sz := by
    rw [← MsgQueue.length_contents h.queue.wf, hc]
    exact Nat.succ_pos _
  rcases step_get (s := s) .block (congrFun hpc t) with ⟨s₁, h1, hq1, hh1, hp1⟩
  rw [← hq1] at hsem hsz hc
  rcases step_getWait (by rw [hp1, Function.update_self]) hsem with
    ⟨s₂, h2, hc2, hwf2, hsz2, hh2, hp2⟩
  rw [← hsz2] at hsz
  rw [← hc2] at hc
  rcases MsgQueue.doGet_spec (hwf2 (by rw [hq1]; exact h.queue.wf)) hsz with ⟨v, q, hd, hq, -⟩
  rw [hc] at hq
  cases hq
  rcases step_getLocked (by rw [hp2, Function.update_self]) hd with ⟨s₃, h3, hq3, hh3, hp3⟩
  rcases step_getPost (by rw [hp3, Function.update_self]) with ⟨s₄, h4, hc4, hh4, hp4⟩
  refine ⟨s₄, ?_, ?_, ?_, ?_⟩
  · rw [Machine.run_cons h1, Machine.run_cons h2, Machine.run_cons h3, Machine.run_cons h4,
      Machine.run]
  · rw [hp4, hp3, hp2, hp1, Function.update_idem, Function.update_idem, Function.update_idem, hpc]
    exact Function.update_eq_self t _
  · rw [hc4, hq3]
  · rw [hh4, hh3, hh2, hh1]

/-- A thread may take any number of addresses one after the other. -/
theorem exists_held {cells : List A} (hc : cells.length = addrs.length) (t : Tid) (k : Nat)
    (hk : k ≤ addrs.length) :
    ∃ s : Sys A Tid, (machine Tid addrs).Reachable s ∧ s.que.pc = (fun _ ↦ .idle) ∧
      s.que.q.contents = addrs.drop k ∧ ∀ a ∈ addrs.take k, a ∈ s.held t := by
  induction k with
  | zero =>
    rcases create_spec hc with ⟨q, hq, -, hcont, -⟩
    refine ⟨start q, .init ⟨cells, q, hc, hq, rfl⟩, rfl, hcont, ?_⟩
    intro a ha
    cases ha
  | succ k ih =>
    rcases ih (by omega) with ⟨s, hs, hpc, hcont, hheld⟩
    rw [List.drop_eq_getElem_cons hk] at hcont
    rcases run_get (inv_of_reachable hs) hpc t hcont with ⟨s', hr, hpc', hcont', hheld'⟩
    refine ⟨s', hs.run hr, hpc', hcont', ?_⟩
    intro a ha
    rw [hheld', Function.update_self, List.mem_cons]
    rw [List.take_succ_eq_append_getElem hk, List.mem_append, List.mem_singleton] at ha
    rcases ha with ha | ha
    · exact .inr (hheld a ha)
    · exact .inl ha

/-- A thread may take all addresses. -/
theorem exists_all_held {cells : List A} (hc : cells.length = addrs.length) (t : Tid) :
    ∃ s : Sys A Tid, (machine Tid addrs).Reachable s ∧ ∀ a ∈ addrs, a ∈ s.hands t := by
  rcases exists_held hc t addrs.length (Nat.le_refl _) with ⟨s, hs, -, -, hh⟩
  rw [List.take_length] at hh
  exact ⟨s, hs, fun a ha ↦ List.mem_append_right _ (hh a ha)⟩

end

/-! ### Blocks -/

/-- The blocks in all hands lie inside the array and do not overlap. -/
structure Blocks (arr length sz : Nat) (s : Sys Nat Tid) : Prop where
  inside : ∀ t a, a ∈ s.hands t → arr ≤ a ∧ a + sz ≤ arr + length
  disjoint : ∀ t u a b, a ∈ s.hands t → b ∈ s.hands u → a ≠ b → a + sz ≤ b ∨ b + sz ≤ a

theorem mem_blockAddrs {arr n sz a : Nat} :
    a ∈ blockAddrs arr n sz ↔ ∃ i < n, arr + i * sz % 2 ^ 64 = a := by
  simp [blockAddrs]

/-- The index of a block does not wrap if the array fits. -/
theorem mul_lt {n sz i : Nat} (h : n * sz < 2 ^ 64) (hi : i < n) : i * sz < 2 ^ 64 :=
  Nat.lt_of_le_of_lt (Nat.mul_le_mul_right sz (Nat.le_of_lt hi)) h

theorem blockAddrs_eq {arr n sz : Nat} (h : n * sz < 2 ^ 64) :
    blockAddrs arr n sz = (List.range n).map fun i ↦ arr + i * sz := by
  apply List.map_congr_left
  intro i hi
  rw [Nat.mod_eq_of_lt (mul_lt h (List.mem_range.mp hi))]

theorem nodup_blockAddrs {arr n sz : Nat} (hs : 0 < sz) (h : n * sz < 2 ^ 64) :
    (blockAddrs arr n sz).Nodup := by
  rw [blockAddrs_eq h]
  apply List.Nodup.map _ List.nodup_range
  intro i j he
  exact Nat.eq_of_mul_eq_mul_right hs (Nat.add_left_cancel he)

/-- Blocks of an array that fits lie one behind the other. -/
theorem blocks_of_lt {arr n sz : Nat} {s : Sys Nat Tid} (h : Inv (blockAddrs arr n sz) s)
    (hs : 0 < sz) (hlt : n * sz < 2 ^ 64) : Blocks arr (arrayLength n sz) sz s := by
  have hx := h.exclusive (nodup_blockAddrs hs hlt)
  have hmem : ∀ t a, a ∈ s.hands t → ∃ i < n, arr + i * sz = a := by
    intro t a ha
    rcases mem_blockAddrs.mp (hx.from_pool t a ha) with ⟨i, hi, he⟩
    rw [Nat.mod_eq_of_lt (mul_lt hlt hi)] at he
    exact ⟨i, hi, he⟩
  have hnext : ∀ {i j : Nat}, i < j → i * sz + sz ≤ j * sz := by
    intro i j hij
    have hm := Nat.mul_le_mul_right sz (Nat.succ_le_of_lt hij)
    rwa [Nat.succ_mul] at hm
  constructor
  · intro t a ha
    rcases hmem t a ha with ⟨i, hi, rfl⟩
    have hn := hnext hi
    rw [arrayLength, Nat.mod_eq_of_lt hlt]
    omega
  · intro t u a b ha hb hne
    rcases hmem t a ha with ⟨i, -, rfl⟩
    rcases hmem u b hb with ⟨j, -, rfl⟩
    rcases Nat.lt_trichotomy i j with hij | hij | hij
    · have hn := hnext hij
      exact .inl (by omega)
    · exact absurd (by rw [hij]) hne
    · have hn := hnext hij
      exact .inr (by omega)

/-- If the length of the array wraps around, the last block before that reaches past its end. -/
theorem exists_outside {n sz : Nat} (h : 2 ^ 64 ≤ n * sz) (arr : Nat) :
    ∃ a ∈ blockAddrs arr n sz, arr + arrayLength n sz < a + sz := by
  have hpos : 0 < sz := by
    by_contra h0
    rw [Nat.eq_zero_of_not_pos h0, Nat.mul_zero] at h
    omega
  have hdm := Nat.div_add_mod (2 ^ 64 - 1) sz
  have hml := Nat.mod_lt (2 ^ 64 - 1) hpos
  rw [Nat.mul_comm] at hdm
  have hle : (2 ^ 64 - 1) / sz * sz < 2 ^ 64 := by omega
  have hlt : (2 ^ 64 - 1) / sz < n := by
    by_contra hge
    have hm := Nat.mul_le_mul_right sz (Nat.not_lt.mp hge)
    omega
  refine ⟨_, mem_blockAddrs.mpr ⟨_, hlt, rfl⟩, ?_⟩
  have ha : arrayLength n sz < 2 ^ 64 := Nat.mod_lt _ (Nat.two_pow_pos 64)
  rw [Nat.mod_eq_of_lt hle]
  omega

/-- A pool whose array does not fit gives out a block that is not inside the array. -/
theorem exists_not_blocks [Nonempty Tid] {n sz : Nat} (h : 2 ^ 64 ≤ n * sz) (arr : Nat) :
    ∃ s : Sys Nat Tid, (machine Tid (blockAddrs arr n sz)).Reachable s ∧
      ¬ Blocks arr (arrayLength n sz) sz s := by
  rcases ‹Nonempty Tid› with ⟨t⟩
  rcases exists_outside h arr with ⟨a, ha, hlt⟩
  rcases exists_all_held (Eq.refl (blockAddrs arr n sz).length) t with ⟨s, hs, hall⟩
  refine ⟨s, hs, ?_⟩
  intro hb
  exact Nat.not_le_of_lt hlt (hb.inside t a (hall a ha)).2

/-- Any addresses that differ are handed out one holder each, in every run of any threads; the
blocks of a pool of memory are moreover inside its array and apart exactly if the size of that
array is a `size_t`. -/
theorem pools_exclusive [Nonempty Tid] :
    (∀ (A : Type) [DecidableEq A] (addrs : List A), addrs.Nodup → ∀ s : Sys A Tid,
      (machine Tid addrs).Reachable s → Exclusive addrs s) ∧
    ∀ arr n sz, 0 < sz →
      ((∀ s : Sys Nat Tid, (machine Tid (blockAddrs arr n sz)).Reachable s →
        Exclusive (blockAddrs arr n sz) s ∧ Blocks arr (arrayLength n sz) sz s) ↔
      n * sz < 2 ^ 64) := by
  constructor
  · intro A _ addrs hn s hs
    exact (inv_of_reachable hs).exclusive hn
  · intro arr n sz hsz
    constructor
    · intro h
      by_contra hge
      rcases @exists_not_blocks Tid _ _ _ _ _ (Nat.not_lt.mp hge) arr with ⟨s, hs, hb⟩
      exact hb (h s hs).2
    · intro hlt s hs
      have hi := inv_of_reachable hs
      exact ⟨hi.exclusive (nodup_blockAddrs hsz hlt), blocks_of_lt hi hsz hlt⟩

/-- Two threads on 2 objects at 7 and 9, and on 2 blocks of 3 items. -/
theorem pools_exclusive_two :
    (∀ s : Sys Nat Bool, (machine Bool [7, 9]).Reachable s → Exclusive [7, 9] s) ∧
    ∀ s : Sys Nat Bool, (machine Bool (blockAddrs 100 2 3)).Reachable s →
      Exclusive (blockAddrs 100 2 3) s ∧ Blocks 100 (arrayLength 2 3) 3 s :=
  ⟨pools_exclusive.1 Nat [7, 9] (by decide),
    (pools_exclusive.2 100 2 3 (by decide)).mpr (by decide)⟩

/-- 2 blocks of `2 ^ 63 + 1` bytes: the array has 2 bytes. -/
theorem pools_not_exclusive :
    ¬ ∀ s : Sys Nat Bool, (machine Bool (blockAddrs 0 2 (2 ^ 63 + 1))).Reachable s →
      Exclusive (blockAddrs 0 2 (2 ^ 63 + 1)) s ∧
        Blocks 0 (arrayLength 2 (2 ^ 63 + 1)) (2 ^ 63 + 1) s := by
  intro h
  have hge : 2 ^ 64 ≤ 2 * (2 ^ 63 + 1) := by decide
  rcases @exists_not_blocks Bool _ _ _ _ _ hge 0 with ⟨s, hs, hb⟩
  exact hb (h s hs).2

end CtrlrFx.Os.Pool
