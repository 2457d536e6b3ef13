import CtrlrFx.Base.Channel
import CtrlrFx.Os.MsgSlot
import CtrlrFx.Os.Pipeline

/-!
# Message queues and slots as channels

`put` and `get` of `CtrlrFx/MsgQueue.h` and `CtrlrFx/MsgSlot.h` are the calls of a channel. Threads
that pass values by these alone may be taken to pass them through queues, a slot being one that
has room for one value.
-/

namespace CtrlrFx.Os
open Base Network

namespace MsgQueue

variable {T : Type}

/-- Where a thread is in its call. A look at the front changes nothing. -/
def Pc.phase : Pc T → Phase T
  | .putWait _ v | .putLocked v => .putting v
  | .putPost => .stored
  | .getWait _ | .getLocked => .getting
  | .getPost v => .fetched v
  | .idle | .peekTest | .peekLocked => .idle

/-- A thread that looks at the front. -/
def Pc.Peeks : Pc T → Prop
  | .peekTest | .peekLocked => True
  | _ => False

theorem Pc.eq_idle {p : Pc T} (hp : p.phase = .idle) (hn : ¬p.Peeks) : p = .idle := by
  cases p with
  | idle => rfl
  | peekTest | peekLocked => exact absurd trivial hn
  | _ => cases hp

/-- A step of a thread that does not look at the front is a step in its call. -/
theorem Moves.phase {cap : Nat} {p p' : Pc T} {vs vs' : List T} (h : Moves p vs p' vs')
    (hn : ¬p.Peeks) (hr : ∀ v, p = .putLocked v → vs.length < cap) :
    p.phase.Moves cap vs p'.phase vs' ∧ ¬p'.Peeks := by
  cases h with
  | slot => exact ⟨.stay nofun, id⟩
  | store => exact ⟨.store (hr _ rfl), id⟩
  | posted => exact ⟨.posted, id⟩
  | data => exact ⟨.stay nofun, id⟩
  | fetch => exact ⟨.fetch, id⟩
  | freed => exact ⟨.freed, id⟩
  | peekTest | peeked => exact absurd trivial hn

variable {Tid : Type} [DecidableEq Tid] [Fintype Tid]

/-- A sound queue of this capacity, at whose front no thread looks. -/
structure Serves (cap : Nat) (s : Sys T Tid) : Prop where
  inv : Inv s
  capacity_eq : s.q.capacity = cap
  no_peek : ∀ t, ¬(s.pc t).Peeks

omit [DecidableEq Tid] in
theorem Serves.length_contents {cap : Nat} {s : Sys T Tid} (h : Serves cap s) :
    s.q.contents.length = s.q.sz :=
  MsgQueue.length_contents h.inv.wf

/-- A call of `put` or `get`. -/
theorem Serves.call {cap : Nat} {s s' : Sys T Tid} {t : Tid} {op : Op T} (h : Serves cap s)
    (hc : s.call t op = some s') (hp : ¬(s'.pc t).Peeks) : Serves cap s' := by
  rcases Sys.call_idle hc with ⟨hq, -, ho⟩
  refine ⟨h.inv.step (a := .call t op) hc, by rw [hq, h.capacity_eq], fun u ↦ ?_⟩
  by_cases hu : u = t
  · rwa [hu]
  · rw [ho u hu]
    exact h.no_peek u

/-- What a call comes to. -/
theorem Serves.call_spec {cap : Nat} {s : Sys T Tid} {t : Tid} (h : Serves cap s)
    (ht : (s.pc t).phase = .idle) {op : Op T} {p : Pc T} (hp : ¬p.Peeks)
    (hc : s.pc t = .idle → s.call t op = some (s.moveTo t p)) :
    ∃ s', s.call t op = some s' ∧ Serves cap s' ∧ s'.q.contents = s.q.contents ∧
      (fun u ↦ (s'.pc u).phase) = Function.update (fun u ↦ (s.pc u).phase) t p.phase := by
  have hcall := hc (Pc.eq_idle ht (h.no_peek t))
  refine ⟨_, hcall, h.call hcall ?_, rfl, ?_⟩
  · have hat : (s.moveTo t p).pc t = p := Function.update_self ..
    rwa [hat]
  · funext u
    change (Function.update s.pc t p u).phase = _
    by_cases hu : u = t
    · rw [hu, Function.update_self, Function.update_self]
    · rw [Function.update_of_ne hu, Function.update_of_ne hu]

/-- Where no thread can go on, none is between the two semaphores. -/
theorem flight_of_go {s : Sys T Tid} {t : Tid} (h : Inv s)
    (hg : (s.pc t).phase ≠ .idle → s.go t = none) :
    slotFlight (s.pc t) = 0 ∧ dataFlight (s.pc t) = 0 := by
  unfold Sys.go at hg
  cases hp : s.pc t with
  | idle | putWait _ _ | getWait _ | peekTest | peekLocked => exact ⟨rfl, rfl⟩
  | putLocked v | putPost | getPost v =>
    rw [hp] at hg
    cases hg nofun
  | getLocked =>
    rw [hp] at hg
    rcases doGet_spec h.wf (h.unread hp) with ⟨v, q, hd, -⟩
    have hnone := hg nofun
    dsimp only at hnone
    rw [hd] at hnone
    cases hnone

/-- If no thread can go on, those that put wait for room, and those that get for a value. -/
theorem Serves.stuck {cap : Nat} {s : Sys T Tid} (h : Serves cap s)
    (hg : ∀ t, (s.pc t).phase ≠ .idle → s.go t = none) (t : Tid) :
    (s.pc t).phase.Waits cap s.q.contents := by
  have hs : total slotFlight s.pc = 0 :=
    (total_eq_zero_iff _ _).mpr fun u ↦ (flight_of_go h.inv (hg u)).1
  have hd : total dataFlight s.pc = 0 :=
    (total_eq_zero_iff _ _).mpr fun u ↦ (flight_of_go h.inv (hg u)).2
  have hslots := h.inv.slots
  have hdatas := h.inv.datas
  have hlen := h.length_contents
  have hcap := h.capacity_eq
  have hflight := flight_of_go h.inv (hg t)
  have hgt := hg t
  unfold Sys.go at hgt
  cases hp : s.pc t with
  | idle | peekTest | peekLocked => trivial
  | putWait m v =>
    rw [hp] at hgt
    have hzero : s.q.slotSem = 0 := by
      by_contra hne
      have hnone := hgt nofun
      dsimp only at hnone
      rw [if_neg hne] at hnone
      cases hnone
    change cap ≤ s.q.contents.length
    omega
  | getWait m =>
    rw [hp] at hgt
    have hzero : s.q.dataSem = 0 := by
      by_contra hne
      have hnone := hgt nofun
      dsimp only at hnone
      rw [if_neg hne] at hnone
      cases hnone
    change s.q.contents = []
    apply List.eq_nil_of_length_eq_zero
    omega
  | putLocked v | getPost v =>
    rw [hp] at hflight
    cases hflight.1
  | putPost | getLocked =>
    rw [hp] at hflight
    cases hflight.2

/-- A queue that no thread is in, with its history if it holds values already. -/
def Sys.rest (q : MsgQueue T) : Sys T Tid :=
  { q := q, pc := fun _ ↦ .idle, events := q.contents.map Fifo.Event.enq }

omit [DecidableEq Tid] in
theorem Quiet.serves {q : MsgQueue T} (h : q.Quiet) :
    Serves q.capacity (Sys.rest q : Sys T Tid) := by
  have hs : total slotFlight (fun _ : Tid ↦ (Pc.idle : Pc T)) = 0 := total_const_zero _ _ rfl
  have hd : total dataFlight (fun _ : Tid ↦ (Pc.idle : Pc T)) = 0 := total_const_zero _ _ rfl
  have hl := MsgQueue.length_contents h.wf
  refine ⟨⟨h.wf, Fifo.Run.of_length_le (by rw [hl]; exact h.wf.sz_le), ?_, ?_⟩, rfl, fun _ ↦ id⟩
  · change q.sz + q.slotSem + total slotFlight (fun _ : Tid ↦ (Pc.idle : Pc T)) = q.capacity
    rw [hs, Nat.add_zero, h.slots]
  · change q.dataSem + total dataFlight (fun _ : Tid ↦ (Pc.idle : Pc T)) = q.sz
    rw [hd, Nat.add_zero, h.datas]

/-- `put` and `get` of a queue that has room for `cap` values; `CtrlrFx/MsgQueue.h:367–466`. -/
def channel (T Tid : Type) [DecidableEq Tid] [Fintype Tid] (cap : Nat) : Channel Tid T where
  State := Sys T Tid
  cap := cap
  phase s t := (s.pc t).phase
  contents s := s.q.contents
  put s t v := s.call t (.put .block v)
  get s t := s.call t (.get .block)
  go s t := s.go t
  Inv := Serves cap
  put_spec v hi hp := hi.call_spec hp (p := .putWait .block v) id (Sys.call_put _ v)
  get_spec hi hp := hi.call_spec hp (p := .getWait .block) id (Sys.call_get _)
  go_spec := by
    intro s s' t hi hg
    rcases Sys.go_moves hi.inv hg with ⟨hm, ho, hcap⟩
    have hr : ∀ v, s.pc t = .putLocked v → s.q.contents.length < cap := by
      intro v hp
      rw [hi.length_contents, ← hi.capacity_eq]
      exact hi.inv.room hp
    rcases hm.phase (hi.no_peek t) hr with ⟨hph, hn⟩
    refine ⟨⟨hi.inv.go hg, hcap.trans hi.capacity_eq, fun u ↦ ?_⟩, hph, fun u hu ↦ ?_⟩
    · by_cases hu : u = t
      · rwa [hu]
      · rw [ho u hu]
        exact hi.no_peek u
    · rw [ho u hu]
  stuck_spec hi hg t := hi.stuck hg t

end MsgQueue

namespace MsgSlot

variable {T : Type}

/-- Where a thread is in its call. -/
def Pc.phase : Pc T → Phase T
  | .putWait _ v | .putCopy v => .putting v
  | .putPost _ => .stored
  | .getWait _ | .getCopy => .getting
  | .getPost v => .fetched v
  | .idle => .idle

theorem Pc.eq_idle {p : Pc T} (hp : p.phase = .idle) : p = .idle := by
  cases p with
  | idle => rfl
  | _ => cases hp

/-- The message in the slot, if there is one: what was copied in and not yet out. -/
def Sys.contents {Tid : Type} (s : Sys T Tid) : List T :=
  (Fifo.inserted s.events).drop (Fifo.removed s.events).length

section

variable {Tid : Type} {s : Sys T Tid} {p : Place Tid} {t : Tid}

theorem Inv.contents_eq (h : Inv s p) : s.contents = p.contents s := by
  rw [Sys.contents, h.conserved, List.drop_left]

variable [DecidableEq Tid]

theorem Sys.phase_moveTo (s : Sys T Tid) (t u : Tid) (x : Pc T) :
    ((s.moveTo t x).pc u).phase = if u = t then x.phase else (s.pc u).phase := by
  change (Function.update s.pc t x u).phase = _
  by_cases hu : u = t
  · rw [if_pos hu, hu, Function.update_self]
  · rw [if_neg hu, Function.update_of_ne hu]

/-- What a call comes to. -/
theorem Sys.call_spec (hi : ∃ p, Inv s p) (ht : (s.pc t).phase = .idle) {op : Op T} {x : Pc T}
    (hc : s.pc t = .idle → s.call t op = some (s.moveTo t x)) :
    ∃ s', s.call t op = some s' ∧ (∃ p, Inv s' p) ∧ s'.contents = s.contents ∧
      (fun u ↦ (s'.pc u).phase) = Function.update (fun u ↦ (s.pc u).phase) t x.phase := by
  have hcall := hc (Pc.eq_idle ht)
  rcases hi with ⟨p, hi⟩
  refine ⟨_, hcall, hi.step (a := .call t op) hcall, rfl, ?_⟩
  funext u
  rw [Sys.phase_moveTo, Function.update_apply]

/-- A step of a thread is a step in its call on a queue of one value. -/
theorem Inv.go_phase {s' : Sys T Tid} (h : Inv s p) (hg : s.go t = some s') :
    (s.pc t).phase.Moves 1 s.contents (s'.pc t).phase s'.contents ∧
      ∀ u, u ≠ t → (s'.pc u).phase = (s.pc u).phase := by
  unfold Sys.go at hg
  have hcons := h.contents_eq
  cases hp : s.pc t with
  | idle =>
    rw [hp] at hg
    cases hg
  | putWait m v =>
    rw [hp] at hg
    rcases Option.map_eq_some_iff.mp hg with ⟨slot, -, rfl⟩
    refine ⟨?_, fun u hu ↦ by rw [Sys.phase_moveTo, if_neg hu]⟩
    rw [Sys.phase_moveTo, if_pos rfl]
    refine .stay fun he ↦ ?_
    cases he
  | putCopy v =>
    rw [hp] at hg
    cases hg
    refine ⟨?_, fun u hu ↦ by rw [Sys.phase_moveTo, if_neg hu]⟩
    rw [Sys.phase_moveTo, if_pos rfl]
    -- the thread that has the token finds the slot empty
    have hheld : p.contents s = [] := by
      rw [h.place hp trivial, Place.contents, hp]
      rfl
    have hins : Fifo.inserted s.events = Fifo.removed s.events := by
      rw [h.conserved, hheld, List.append_nil]
    have hnew : (Fifo.inserted (s.events ++ [.enq v])).drop
        (Fifo.removed (s.events ++ [.enq v])).length = [] ++ [v] := by
      rw [Fifo.inserted_enq, Fifo.removed_enq, hins, List.drop_left, List.nil_append]
    rw [hcons, hheld]
    change Phase.Moves 1 _ _ _ ((Fifo.inserted (s.events ++ [.enq v])).drop
      (Fifo.removed (s.events ++ [.enq v])).length)
    rw [hnew]
    exact .store Nat.one_pos
  | putPost v =>
    rw [hp] at hg
    cases hg
    refine ⟨?_, fun u hu ↦ by rw [Sys.phase_moveTo, if_neg hu]⟩
    rw [Sys.phase_moveTo, if_pos rfl]
    exact .posted
  | getWait m =>
    rw [hp] at hg
    rcases Option.map_eq_some_iff.mp hg with ⟨slot, -, rfl⟩
    refine ⟨?_, fun u hu ↦ by rw [Sys.phase_moveTo, if_neg hu]⟩
    rw [Sys.phase_moveTo, if_pos rfl]
    refine .stay fun he ↦ ?_
    cases he
  | getCopy =>
    rw [hp] at hg
    cases hg
    refine ⟨?_, fun u hu ↦ by rw [Sys.phase_moveTo, if_neg hu]⟩
    rw [Sys.phase_moveTo, if_pos rfl]
    -- and there it finds the message
    have hheld : p.contents s = [s.slot.val] := by
      rw [h.place hp trivial, Place.contents, hp]
      rfl
    have hins : Fifo.inserted s.events = Fifo.removed s.events ++ [s.slot.val] := by
      rw [h.conserved, hheld]
    have hnew : (Fifo.inserted (s.events ++ [.deq s.slot.val])).drop
        (Fifo.removed (s.events ++ [.deq s.slot.val])).length = [] := by
      rw [Fifo.inserted_deq, Fifo.removed_deq, hins, List.drop_length]
    rw [hcons, hheld]
    change Phase.Moves 1 _ _ _ ((Fifo.inserted (s.events ++ [.deq s.slot.val])).drop
      (Fifo.removed (s.events ++ [.deq s.slot.val])).length)
    rw [hnew]
    exact .fetch
  | getPost v =>
    rw [hp] at hg
    cases hg
    refine ⟨?_, fun u hu ↦ by rw [Sys.phase_moveTo, if_neg hu]⟩
    rw [Sys.phase_moveTo, if_pos rfl]
    exact .freed

/-- If no thread can go on, those that put wait for room, and those that get for a message. -/
theorem Inv.stuck (h : Inv s p) (hg : ∀ t, (s.pc t).phase ≠ .idle → s.go t = none) (t : Tid) :
    (s.pc t).phase.Waits 1 s.contents := by
  have hnone : ∀ u, p ≠ .thread u := by
    intro u hu
    have hgo := hg u
    have hf := (h.carried u).mpr hu
    unfold Sys.go at hgo
    cases hp : s.pc u with
    | idle | putWait _ _ | getWait _ =>
      rw [hp] at hf
      exact hf
    | putCopy _ | putPost _ | getCopy | getPost _ =>
      rw [hp] at hgo
      cases hgo nofun
  have hgo := hg t
  unfold Sys.go at hgo
  rw [h.contents_eq]
  cases hp : s.pc t with
  | idle => trivial
  | putWait m v =>
    rw [hp] at hgo
    have hz := Option.map_eq_none_iff.mp (hgo nofun)
    have he := h.empties
    cases p with
    | empty =>
      rw [MsgSlot.acquireEmpty, he] at hz
      cases hz
    | full => exact Nat.le_refl 1
    | thread u => exact absurd rfl (hnone u)
  | getWait m =>
    rw [hp] at hgo
    have hz := Option.map_eq_none_iff.mp (hgo nofun)
    have hf := h.fulls
    cases p with
    | empty => rfl
    | full =>
      rw [MsgSlot.acquireFull, hf] at hz
      cases hz
    | thread u => exact absurd rfl (hnone u)
  | putCopy _ | putPost _ | getCopy | getPost _ =>
    have hplace := h.place hp trivial
    exact absurd hplace (hnone t)

end

/-- `put` and `get` of a slot; `CtrlrFx/MsgSlot.h:118–123,154–169`. -/
def channel (T Tid : Type) [DecidableEq Tid] : Channel Tid T where
  State := Sys T Tid
  cap := 1
  phase s t := (s.pc t).phase
  contents := Sys.contents
  put s t v := s.call t (.put .block v)
  get s t := s.call t (.get .block)
  go s t := s.go t
  Inv s := ∃ p, Inv s p
  put_spec v hi hp :=
    Sys.call_spec hi hp (x := .putWait .block v) fun h ↦ by simp only [Sys.call, h]
  get_spec hi hp :=
    Sys.call_spec hi hp (x := .getWait .block) fun h ↦ by simp only [Sys.call, h]
  go_spec := by
    rintro s s' t ⟨p, hi⟩ hg
    rcases hi.go_phase hg with ⟨hm, ho⟩
    exact ⟨hi.go hg, hm, ho⟩
  stuck_spec := by
    rintro s ⟨p, hi⟩ hg t
    exact hi.stuck hg t

end MsgSlot

/-! ### Programs -/

/-- What a channel is: a queue with room for so many values, or a slot. -/
inductive ChannelKind where
  | queue (cap : Nat)
  | slot
  deriving DecidableEq, Repr

namespace ChannelKind

/-- The code of the channel. -/
def channel (T Tid : Type) [DecidableEq Tid] [Fintype Tid] : ChannelKind → Channel Tid T
  | queue cap => MsgQueue.channel T Tid cap
  | slot => MsgSlot.channel T Tid

/-- How many values there is room for. -/
def room : ChannelKind → Nat
  | queue cap => cap
  | slot => 1

variable {T Tid : Type} [DecidableEq Tid] [Fintype Tid]

theorem cap_channel (k : ChannelKind) : (k.channel T Tid).cap = k.room := by
  cases k <;> rfl

theorem caps {κ : Type} (kind : κ → ChannelKind) (α : κ → Type) :
    (fun c ↦ ((kind c).channel (α c) Tid).cap) = fun c ↦ (kind c).room :=
  funext fun c ↦ (kind c).cap_channel

/-- A queue at rest, or a new slot. -/
def Rests : (k : ChannelKind) → (k.channel T Tid).State → Prop
  | queue cap, s => ∃ q : MsgQueue T, q.Quiet ∧ q.capacity = cap ∧ s = MsgQueue.Sys.rest q
  | slot, s => ∃ val : T, s = MsgSlot.Sys.start val

theorem Rests.inv {k : ChannelKind} {s : (k.channel T Tid).State} (h : k.Rests s) :
    (k.channel T Tid).Inv s := by
  cases k with
  | queue cap =>
    rcases h with ⟨q, hq, rfl, rfl⟩
    exact hq.serves
  | slot =>
    rcases h with ⟨val, rfl⟩
    exact ⟨_, MsgSlot.inv_start val⟩

theorem Rests.idle {k : ChannelKind} {s : (k.channel T Tid).State} (h : k.Rests s) (t : Tid) :
    (k.channel T Tid).phase s t = .idle := by
  cases k with
  | queue cap =>
    rcases h with ⟨q, hq, rfl, rfl⟩
    rfl
  | slot =>
    rcases h with ⟨val, rfl⟩
    rfl

end ChannelKind

section

variable {ι κ : Type} [DecidableEq ι] [Fintype ι] [DecidableEq κ] {α : κ → Type} {σ γ β : Type}

/-- Threads on new queues and slots, or on queues that hold values already. -/
def threads (p : Program ι α σ γ β) (kind : κ → ChannelKind) (init : State ι α σ γ → Prop) :
    Machine (Sys σ γ fun c ↦ (kind c).channel (α c) ι) (ι × β) :=
  Sys.machine p fun s ↦ (∀ c, (kind c).Rests (s.chan c)) ∧ init (s.abs p)

/-- What threads do that pass values by `put` and `get` of message queues and slots, they do if
each of these calls is made at once; and if with the code of these calls none of them can go on,
none can then, each at its end, without work, or at a channel that is full or empty. -/
theorem threads_atomic (p : Program ι α σ γ β) (kind : κ → ChannelKind)
    (init : State ι α σ γ → Prop) {s : Sys σ γ fun c ↦ (kind c).channel (α c) ι}
    (h : (threads p kind init).Reachable s) :
    (machine p (fun c ↦ (kind c).room) init).Reachable (s.abs p) ∧
      ∀ b, (∀ t, s.step p (t, b) = none) →
        ∀ t, Blocked (fun c ↦ (kind c).room) (s.abs p) b (p t ((s.abs p).loc t)) := by
  have hcap : (fun c ↦ ((kind c).channel (α c) ι).cap) = fun c ↦ (kind c).room :=
    ChannelKind.caps kind α
  have hfresh : ∀ s : Sys σ γ fun c ↦ (kind c).channel (α c) ι,
      (∀ c, (kind c).Rests (s.chan c)) ∧ init (s.abs p) → s.Fresh ∧ init (s.abs p) := by
    rintro s ⟨hr, hi⟩
    exact ⟨⟨fun c ↦ (hr c).inv, fun c ↦ (hr c).idle⟩, hi⟩
  rcases Sys.refines hfresh h with ⟨hg, hr⟩
  rw [hcap] at hr
  refine ⟨hr, ?_⟩
  intro b hs t
  rw [← step_eq_none_iff, ← hcap]
  exact hg.stuck hs t

end

/-- One thread puts 7 into a slot, and another gets it. -/
def relay : Program Bool (fun _ : Unit ↦ Nat) Nat Unit Unit
  | false, 0 => .put () 7 1
  | true, 0 => .get () id
  | _, _ => .stop

/-- The first thread waits in its call until the second has stored. -/
def relayOver : List Bool := [true, false, false, false, false, true, true, true]

theorem threads_atomic_relay :
    ∃ s : Sys Nat Unit fun _ : Unit ↦ ChannelKind.slot.channel Nat Bool, s.loc true = 7 ∧
    (machine relay (fun _ ↦ 1) fun s ↦ s.loc = fun _ ↦ 0).Reachable (s.abs relay) ∧
      ∀ b, (∀ t, s.step relay (t, b) = none) →
        ∀ t, Blocked (fun _ ↦ 1) (s.abs relay) b (relay t ((s.abs relay).loc t)) := by
  obtain ⟨s₀, h₀⟩ : ∃ s : Sys Nat Unit fun _ : Unit ↦ ChannelKind.slot.channel Nat Bool,
      s = { loc := fun _ ↦ 0, chan := fun _ ↦ MsgSlot.Sys.start 0, mem := () } := ⟨_, rfl⟩
  have hinit : (threads relay (fun _ ↦ .slot) fun s ↦ s.loc = fun _ ↦ 0).Reachable s₀ := by
    rw [h₀]
    exact .init ⟨fun _ ↦ ⟨0, rfl⟩, funext fun _ ↦ Sys.place_of_idle fun _ ↦ rfl⟩
  have hsome : (((threads relay (fun _ ↦ .slot) fun s ↦ s.loc = fun _ ↦ 0).run s₀
      (relayOver.map fun t ↦ (t, ()))).map fun s ↦ s.loc true) = some 7 := by
    rw [h₀]
    decide
  rcases Option.map_eq_some_iff.mp hsome with ⟨s, hs, hl⟩
  exact ⟨s, hl, threads_atomic relay (fun _ ↦ .slot) _ (hinit.run hs)⟩

end CtrlrFx.Os
