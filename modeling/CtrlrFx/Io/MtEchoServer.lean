import CtrlrFx.Data.Buffer
import CtrlrFx.Os.Channels
import CtrlrFx.Os.Pool
import Mathlib.Data.Fintype.BigOperators

/-!
# The multi-threaded echo server

`examples/net/echo/MtEchoServer/MtEchoServer.cpp`: `main` accepts connections, takes a handler
for each of them out of a pool of threads, and gives it the connection through its message slot.
The handler sends back what it receives, and puts itself back into the pool.
-/

namespace CtrlrFx.Io.MtEchoServer
open Base Data Network Os

/-- `main`, and the handlers of the pool. -/
abbrev Thread (H : Type) := Option H

/-- The queue of the pool, and the slot of each handler. -/
abbrev Que (H : Type) := Option H

/-- Handlers are in the pool, and handles of sockets in the slots. `none` is `INVALID_SOCKET`. -/
abbrev Item (H : Type) : Que H → Type
  | none => H
  | some _ => Option Nat

/-- A pool of `n` threads. -/
def kind {H : Type} (n : Nat) : Que H → ChannelKind
  | none => .queue n
  | some _ => .slot

/-- Where a thread is. `main` is in `accept`, has a connection, or a handler for it as well; a
handler waits for a connection, has it, is about to read from it or to write to it, puts itself back
into the pool, or leaves the block in which its socket lives. -/
inductive Place (H : Type) where
  | accepting
  | accepted (fd : Nat)
  | handing (fd : Nat) (h : H)
  | ended
  | waiting
  | opened (s : Option Nat)
  | reading (fd : Nat)
  | writing (fd : Nat)
  | pooling (fd : Nat)
  | closing (fd : Nat)
  deriving DecidableEq, Repr

/-- What was received on a connection and sent back, and whether a `send` failed. -/
structure Conn where
  received : List UInt8 := []
  sent : List UInt8 := []
  failed : Bool := false
  deriving DecidableEq, Repr

/-- The buffers of the handlers, the sockets that are open, and what came of each connection. -/
structure Mem (H : Type) where
  buf : H → Buffer UInt8
  socks : List Nat
  conns : Nat → Conn

/-- What the world says: the next connection, if there is one, the bytes that have come, and how
many of ours are taken. -/
structure World where
  conn : Option Nat
  bytes : List UInt8
  count : Nat

variable {H : Type} [DecidableEq H]

namespace Mem

/-- A new connection. The system gives it a handle that is not in use. -/
def accept (m : Mem H) (fd : Nat) : Option (Mem H) :=
  if fd ∈ m.socks then none
  else some { m with socks := fd :: m.socks, conns := Function.update m.conns fd {} }

/-- `sock.read(buf.clear())`, and `buf.flip()` where something was read;
`src/io/net/Socket.cpp:239–247`. -/
def read (m : Mem H) (h : H) (fd : Nat) (bytes : List UInt8) : Place H × Mem H :=
  let b := (m.buf h).clear
  let bs := bytes.take b.available
  let c := m.conns fd
  if bs = [] then (.pooling fd, { m with buf := Function.update m.buf h b })
  else
    (.writing fd,
      { m with
        buf := Function.update m.buf h
          { b with mem := Block.write b.mem b.pos bs, pos := b.pos + bs.length }.flip
        conns := Function.update m.conns fd { c with received := c.received ++ bs } })

/-- One turn of `sock.write_n(buf)`; `src/io/net/Socket.cpp:325–339`. -/
def write (m : Mem H) (h : H) (fd n : Nat) : Place H × Mem H :=
  let b := m.buf h
  let c := m.conns fd
  if b.full then (.reading fd, m)
  else
    let k := min n b.available
    if k = 0 then
      (.reading fd, { m with conns := Function.update m.conns fd { c with failed := true } })
    else
      (.writing fd,
        { m with
          buf := Function.update m.buf h { b with pos := b.pos + k }
          conns := Function.update m.conns fd { c with sent := c.sent ++ b.unread.take k } })

end Mem

/-- The code of `main` and of the handlers;
`examples/net/echo/MtEchoServer/MtEchoServer.cpp:71–96,103–140`. -/
def code : Program (Thread H) (Item H) (Place H) (Mem H) World
  | none, .accepting => .work fun w m ↦
      match w.conn with
      | none => some (.ended, m)
      | some fd => (m.accept fd).map fun m ↦ (.accepted fd, m)
  | none, .accepted fd => .get none (.handing fd)
  | none, .handing fd h => .put (some h) (some fd) .accepting
  | some h, .waiting => .get (some h) .opened
  | some _, .opened none => .work fun _ m ↦ some (.waiting, m)
  | some _, .opened (some fd) => .work fun _ m ↦ some (.reading fd, m)
  | some h, .reading fd => .work fun w m ↦ some (m.read h fd w.bytes)
  | some h, .writing fd => .work fun w m ↦ some (m.write h fd w.count)
  | some h, .pooling fd => .put none h (.closing fd)
  | some _, .closing fd => .work fun _ m ↦ some (.waiting, { m with socks := m.socks.erase fd })
  | _, _ => .stop

/-- The server with atomic queues. -/
abbrev St (H : Type) := State (Thread H) (Item H) (Place H) (Mem H)

def startPlace : Thread H → Place H
  | none => .accepting
  | some _ => .waiting

def startMem (buf : H → Buffer UInt8) : Mem H :=
  { buf, socks := [], conns := fun _ ↦ {} }

section

variable [Fintype H]

/-- The server with the code of the pool's queue and of the slots. -/
abbrev Server (H : Type) [DecidableEq H] [Fintype H] (n : Nat) :=
  Sys (Place H) (Mem H) fun c : Que H ↦ (kind n c).channel (Item H c) (Thread H)

/-- The pool as its constructor leaves it, and new slots. -/
def startChan (n : Nat) (q : MsgQueue H) (val : Option Nat) :
    (c : Que H) → ((kind n c).channel (Item H c) (Thread H)).State
  | none => MsgQueue.Sys.rest q
  | some _ => MsgSlot.Sys.start val

/-- The server with these handlers. -/
def machine (arr : List H) : Machine (Server H arr.length) (Thread H × World) :=
  Sys.machine code fun s ↦ ∃ (buf : H → Buffer UInt8) (cells : List H) (q : MsgQueue H)
    (val : Option Nat), cells.length = arr.length ∧ Pool.create cells arr = some q ∧
      s = { loc := startPlace, chan := startChan arr.length q val, mem := startMem buf }

end

/-! ### What a step can do -/

/-- The steps of `main` and of the handlers. -/
inductive Step (s : St H) : St H → Prop where
  | accept {fd : Nat} {m : Mem H} (hp : s.loc none = .accepting) (hm : s.mem.accept fd = some m) :
      Step s { s.goTo none (.accepted fd) with mem := m }
  | refuse (hp : s.loc none = .accepting) : Step s (s.goTo none .ended)
  | take {fd : Nat} {h : H} {hs : List H} (hp : s.loc none = .accepted fd)
      (hc : s.chan none = h :: hs) : Step s ((s.setChan none hs).goTo none (.handing fd h))
  | hand {fd : Nat} {h : H} (hp : s.loc none = .handing fd h)
      (hr : (s.chan (some h)).length < 1) :
      Step s ((s.setChan (some h) (s.chan (some h) ++ [some fd])).goTo none .accepting)
  | fetch {h : H} {v : Option Nat} {vs : List (Option Nat)} (hp : s.loc (some h) = .waiting)
      (hc : s.chan (some h) = v :: vs) :
      Step s ((s.setChan (some h) vs).goTo (some h) (.opened v))
  | skip {h : H} (hp : s.loc (some h) = .opened none) : Step s (s.goTo (some h) .waiting)
  | start {h : H} {fd : Nat} (hp : s.loc (some h) = .opened (some fd)) :
      Step s (s.goTo (some h) (.reading fd))
  | read {h : H} {fd : Nat} {bytes : List UInt8} (hp : s.loc (some h) = .reading fd) :
      Step s { s.goTo (some h) (s.mem.read h fd bytes).1 with mem := (s.mem.read h fd bytes).2 }
  | write {h : H} {fd n : Nat} (hp : s.loc (some h) = .writing fd) :
      Step s { s.goTo (some h) (s.mem.write h fd n).1 with mem := (s.mem.write h fd n).2 }
  | pool {h : H} {fd : Nat} (hp : s.loc (some h) = .pooling fd) :
      Step s ((s.setChan none (s.chan none ++ [h])).goTo (some h) (.closing fd))
  | close {h : H} {fd : Nat} (hp : s.loc (some h) = .closing fd) :
      Step s { s.goTo (some h) .waiting with mem := { s.mem with socks := s.mem.socks.erase fd } }

theorem step_of_effect {n : Nat} {s s' : St H} {t : Thread H}
    (h : Effect code (fun c ↦ (kind n c).room) s t s') : Step s s' := by
  cases h with
  | @work f b l mem hc hf =>
    unfold code at hc
    split at hc <;> cases hc
    · next hp =>
      dsimp only at hf
      split at hf
      · cases hf
        exact .refuse hp
      · rcases Option.map_eq_some_iff.mp hf with ⟨m, hm, ⟨⟩⟩
        exact .accept hp hm
    · next hp =>
      cases hf
      exact .skip hp
    · next hp =>
      cases hf
      exact .start hp
    · next h fd hp =>
      have hr := Option.some.inj hf
      have hstep : Step s { s.goTo (some h) (s.mem.read h fd b.bytes).1 with
          mem := (s.mem.read h fd b.bytes).2 } := .read hp
      rwa [hr] at hstep
    · next h fd hp =>
      have hr := Option.some.inj hf
      have hstep : Step s { s.goTo (some h) (s.mem.write h fd b.count).1 with
          mem := (s.mem.write h fd b.count).2 } := .write hp
      rwa [hr] at hstep
    · next hp =>
      cases hf
      exact .close hp
  | put hc hr =>
    unfold code at hc
    split at hc <;> cases hc
    · next hp => exact .hand hp hr
    · next hp => exact .pool hp
  | @get c v vs k hc hv =>
    unfold code at hc
    split at hc <;> cases hc
    · next hp => exact .take hp hv
    · next hp => exact .fetch hp hv

/-! ### Handlers and sockets -/

/-- The handler that is in the pool, or that a connection waits for. -/
def token : (c : Que H) → Item H c → Multiset H
  | none, h => {h}
  | some h, some _ => {h}
  | some _, none => 0

/-- The handler that `main` has taken, or that has a connection. -/
def Place.token : Thread H → Place H → Multiset H
  | none, handing _ h => {h}
  | some h, opened (some _) | some h, reading _ | some h, writing _ | some h, pooling _ => {h}
  | _, _ => 0

/-- The socket in a slot. -/
def sock : (c : Que H) → Item H c → Multiset Nat
  | none, _ => 0
  | some _, v => bag v

/-- The socket that a thread has. -/
def Place.sock : Place H → Option Nat
  | accepted fd | handing fd _ | reading fd | writing fd | pooling fd | closing fd => some fd
  | opened v => v
  | _ => none

theorem token_read (m : Mem H) (h : H) (fd : Nat) (bytes : List UInt8) :
    (m.read h fd bytes).1.token (some h) = {h} := by
  dsimp only [Mem.read]
  split <;> rfl

theorem token_write (m : Mem H) (h : H) (fd n : Nat) :
    (m.write h fd n).1.token (some h) = {h} := by
  dsimp only [Mem.write]
  split
  · rfl
  · split <;> rfl

/-- Every handler is in the pool, with `main`, waited for or at work. -/
theorem balanced : Balanced (code (H := H)) token fun t l ↦ l.token t := by
  constructor
  · intro t l c v k hc
    unfold code at hc
    split at hc <;> cases hc <;> exact (add_zero _).symm
  · intro t l c k v hc
    unfold code at hc
    split at hc <;> cases hc
    · exact (add_zero _).symm
    · cases v <;> rfl
  · intro t l f b m l' m' hc hf
    unfold code at hc
    split at hc <;> cases hc
    · dsimp only at hf
      split at hf
      · cases hf
        rfl
      · rcases Option.map_eq_some_iff.mp hf with ⟨m, hm, ⟨⟩⟩
        rfl
    · cases hf
      rfl
    · cases hf
      rfl
    · next h fd =>
      have hl : (m.read h fd b.bytes).1 = l' := congrArg Prod.fst (Option.some.inj hf)
      rw [← hl, token_read]
      rfl
    · next h fd =>
      have hl : (m.write h fd b.count).1 = l' := congrArg Prod.fst (Option.some.inj hf)
      rw [← hl, token_write]
      rfl
    · cases hf
      rfl

/-- What is sent back is what was received, but for what is still in a buffer. -/
structure Echo (s : St H) : Prop where
  writing : ∀ h fd, s.loc (some h) = .writing fd → (s.mem.buf h).Valid ∧
    ((s.mem.conns fd).failed = false →
      (s.mem.conns fd).sent ++ (s.mem.buf h).unread = (s.mem.conns fd).received)
  others : ∀ fd, (∀ t, s.loc t ≠ .writing fd) → (s.mem.conns fd).failed = false →
    (s.mem.conns fd).sent = (s.mem.conns fd).received

omit [DecidableEq H] in
/-- No handler in the pool has a socket. -/
theorem sum_sock_pool (hs : List H) : (hs.map (sock none)).sum = 0 := by
  apply List.sum_eq_zero
  intro x hx
  rcases List.mem_map.mp hx with ⟨_, -, rfl⟩
  rfl

/-- The places of `main` and of the handlers. -/
def Place.Of : Thread H → Place H → Prop
  | none, accepting | none, accepted _ | none, handing _ _ | none, ended => True
  | some _, waiting | some _, opened (some _) | some _, reading _ | some _, writing _
  | some _, pooling _ | some _, closing _ => True
  | _, _ => False

namespace Echo

variable {s s' : St H} {t : Thread H} {l : Place H} {fd : Nat}

/-- A thread that goes from one place to another, neither of them in `write_n`. -/
theorem goTo (he : Echo s) (hl : s'.loc = Function.update s.loc t l)
    (hb : s'.mem.buf = s.mem.buf) (hc : s'.mem.conns = s.mem.conns)
    (hto : ∀ fd, l ≠ .writing fd) (hat : ∀ fd, s.loc t ≠ .writing fd) : Echo s' := by
  have hiff (u : Thread H) (fd : Nat) : s'.loc u = .writing fd ↔ s.loc u = .writing fd := by
    rw [hl]
    by_cases hu : u = t
    · rw [hu, Function.update_self]
      exact iff_of_false (hto fd) (hat fd)
    · rw [Function.update_of_ne hu]
  constructor
  · intro h fd hp
    rw [hb, hc]
    exact he.writing h fd ((hiff _ fd).mp hp)
  · intro fd hp
    rw [hc]
    exact he.others fd fun u hw ↦ hp u ((hiff u fd).mpr hw)

/-- A thread with a connection that no other thread writes to. -/
theorem turn (he : Echo s) (hl : s'.loc = Function.update s.loc t l)
    (hfd : ∀ u, u ≠ t → s.loc u ≠ .writing fd) (hat : ∀ fd', s.loc t = .writing fd' → fd' = fd)
    (hb : ∀ h, some h ≠ t → s'.mem.buf h = s.mem.buf h)
    (hc : ∀ fd', fd' ≠ fd → s'.mem.conns fd' = s.mem.conns fd')
    (hw : ∀ h fd', t = some h → l = .writing fd' → fd' = fd ∧ (s'.mem.buf h).Valid ∧
      ((s'.mem.conns fd).failed = false →
        (s'.mem.conns fd).sent ++ (s'.mem.buf h).unread = (s'.mem.conns fd).received))
    (ho : l ≠ .writing fd → (s'.mem.conns fd).failed = false →
      (s'.mem.conns fd).sent = (s'.mem.conns fd).received) : Echo s' := by
  have hself : s'.loc t = l := by rw [hl, Function.update_self]
  have hother (u : Thread H) (hu : u ≠ t) : s'.loc u = s.loc u := by
    rw [hl, Function.update_of_ne hu]
  constructor
  · intro h fd' hp
    by_cases hh : some h = t
    · rw [hh, hself] at hp
      rcases hw h fd' hh.symm hp with ⟨rfl, hok⟩
      exact hok
    · rw [hother _ hh] at hp
      have hne : fd' ≠ fd := by
        rintro rfl
        exact hfd _ hh hp
      rw [hb h hh, hc fd' hne]
      exact he.writing h fd' hp
  · intro fd' hp
    by_cases hne : fd' = fd
    · rw [hne] at hp ⊢
      exact ho fun hlw ↦ hp t (hself.trans hlw)
    · rw [hc fd' hne]
      apply he.others fd'
      intro u hu
      by_cases hut : u = t
      · rw [hut] at hu
        exact hne (hat fd' hu)
      · exact hp u ((hother u hut).trans hu)

/-- Nothing was received on a new connection yet. -/
theorem accept {m : Mem H} (he : Echo s) (hm : s.mem.accept fd = some m)
    (hp : s.loc none = .accepting) (hfd : ∀ u, s.loc u ≠ .writing fd) :
    Echo { s.goTo none (.accepted fd) with mem := m } := by
  rcases Option.ite_none_left_eq_some.mp hm with ⟨-, ⟨⟩⟩
  refine he.turn rfl (fun u _ ↦ hfd u) (fun fd' hw ↦ ?_) (fun _ _ ↦ rfl)
    (fun fd' hne ↦ Function.update_of_ne hne ..) (fun _ _ _ hw ↦ ?_) fun _ _ ↦ ?_
  · rw [hp] at hw
    cases hw
  · cases hw
  · change (Function.update s.mem.conns fd ({} : Conn) fd).sent =
      (Function.update s.mem.conns fd ({} : Conn) fd).received
    rw [Function.update_self]

/-- What was read is to be sent back. -/
theorem read {h : H} (he : Echo s) (hp : s.loc (some h) = .reading fd)
    (hfd : ∀ u, u ≠ some h → s.loc u ≠ .writing fd) (bytes : List UInt8) :
    Echo { s.goTo (some h) (s.mem.read h fd bytes).1 with mem := (s.mem.read h fd bytes).2 } := by
  have hself : ∀ fd', s.loc (some h) ≠ .writing fd' := by
    intro fd' hw
    rw [hp] at hw
    cases hw
  have hsame (hf : (s.mem.conns fd).failed = false) :
      (s.mem.conns fd).sent = (s.mem.conns fd).received := by
    refine he.others fd (fun u ↦ ?_) hf
    by_cases hu : u = some h
    · rw [hu]
      exact hself fd
    · exact hfd u hu
  have hbuf {b : Buffer UInt8} (u : H) (hu : some u ≠ some h) :
      Function.update s.mem.buf h b u = s.mem.buf u :=
    Function.update_of_ne (fun he ↦ hu (congrArg some he)) ..
  obtain ⟨bs, hbs⟩ : ∃ bs, bs = bytes.take (s.mem.buf h).clear.available := ⟨_, rfl⟩
  unfold Mem.read
  dsimp only
  rw [← hbs]
  by_cases hnil : bs = []
  · rw [if_pos hnil]
    refine he.turn rfl hfd (fun fd' hw ↦ absurd hw (hself fd')) hbuf (fun _ _ ↦ rfl)
      (fun _ _ _ hw ↦ ?_) fun _ ↦ hsame
    cases hw
  · rw [if_neg hnil]
    have hroom : 0 + bs.length ≤ (s.mem.buf h).mem.length := by
      have hle : bs.length ≤ (s.mem.buf h).clear.available := by
        rw [hbs]
        exact List.length_take_le ..
      rw [Buffer.available_of_le (Nat.zero_le _)] at hle
      rw [Nat.zero_add]
      exact hle
    refine he.turn rfl hfd (fun fd' hw ↦ absurd hw (hself fd')) hbuf
      (fun fd' hne ↦ Function.update_of_ne hne ..) (fun u fd' hu hw ↦ ?_) fun hw ↦ ?_
    · cases hu
      cases hw
      dsimp only
      rw [Function.update_self, Function.update_self]
      refine ⟨rfl, ⟨Nat.zero_le _, ?_⟩, fun hf ↦ ?_⟩
      · change 0 + bs.length ≤ (Block.write (s.mem.buf h).mem 0 bs).length
        rw [Block.length_write]
        exact hroom
      · rw [Buffer.unread_flip, hsame hf]
        change _ ++ (Block.write (s.mem.buf h).mem 0 bs).take (0 + bs.length) = _
        rw [Block.take_write_end _ _ _ hroom, List.take_zero, List.nil_append]
    · exact absurd rfl hw

/-- What is sent is no longer in the buffer. -/
theorem write {h : H} (he : Echo s) (hp : s.loc (some h) = .writing fd)
    (hfd : ∀ u, u ≠ some h → s.loc u ≠ .writing fd) (n : Nat) :
    Echo { s.goTo (some h) (s.mem.write h fd n).1 with mem := (s.mem.write h fd n).2 } := by
  have hself : ∀ fd', s.loc (some h) = .writing fd' → fd' = fd := by
    intro fd' hw
    rw [hp] at hw
    cases hw
    rfl
  rcases he.writing h fd hp with ⟨hv, hsplit⟩
  unfold Mem.write
  dsimp only
  split
  · next hfull =>
    refine he.turn rfl hfd hself (fun _ _ ↦ rfl) (fun _ _ ↦ rfl) (fun _ _ _ hw ↦ ?_) fun _ hf ↦ ?_
    · cases hw
    · have hall := hsplit hf
      rwa [Buffer.unread_of_full hfull, List.append_nil] at hall
  · split
    · refine he.turn rfl hfd hself (fun _ _ ↦ rfl) (fun fd' hne ↦ Function.update_of_ne hne ..)
        (fun _ _ _ hw ↦ ?_) fun _ hf ↦ ?_
      · cases hw
      · dsimp only at hf
        rw [Function.update_self] at hf
        cases hf
    · have hle : min n (s.mem.buf h).available ≤ (s.mem.buf h).lim - (s.mem.buf h).pos := by
        rw [← Buffer.available_of_le hv.pos_le]
        exact Nat.min_le_right ..
      refine he.turn rfl hfd hself
        (fun u hu ↦ Function.update_of_ne (fun he ↦ hu (congrArg some he)) ..)
        (fun fd' hne ↦ Function.update_of_ne hne ..) (fun u fd' hu hw ↦ ?_) fun hw ↦ ?_
      · cases hu
        cases hw
        dsimp only
        rw [Function.update_self, Function.update_self]
        refine ⟨rfl, ⟨?_, hv.lim_le⟩, fun hf ↦ ?_⟩
        · have hpos := hv.pos_le
          dsimp only
          omega
        · rw [List.append_assoc, Buffer.unread_skip hle]
          exact hsplit hf
      · exact absurd rfl hw

end Echo

theorem sock_read (m : Mem H) (h : H) (fd : Nat) (bytes : List UInt8) :
    (m.read h fd bytes).1.sock = some fd ∧ (m.read h fd bytes).2.socks = m.socks ∧
      (m.read h fd bytes).1.Of (some h) := by
  dsimp only [Mem.read]
  split <;> exact ⟨rfl, rfl, trivial⟩

theorem sock_write (m : Mem H) (h : H) (fd n : Nat) :
    (m.write h fd n).1.sock = some fd ∧ (m.write h fd n).2.socks = m.socks ∧
      (m.write h fd n).1.Of (some h) := by
  dsimp only [Mem.write]
  split
  · exact ⟨rfl, rfl, trivial⟩
  · split <;> exact ⟨rfl, rfl, trivial⟩

theorem Step.nodup {s s' : St H} (h : Step s s') (hn : s.mem.socks.Nodup) :
    s'.mem.socks.Nodup := by
  cases h with
  | accept hp hm =>
    rcases Option.ite_none_left_eq_some.mp hm with ⟨hnew, ⟨⟩⟩
    exact List.nodup_cons.mpr ⟨hnew, hn⟩
  | read =>
    change List.Nodup (Mem.read ..).2.socks
    rw [(sock_read ..).2.1]
    exact hn
  | write =>
    change List.Nodup (Mem.write ..).2.socks
    rw [(sock_write ..).2.1]
    exact hn
  | close => exact hn.erase _
  | _ => exact hn

theorem Step.valid {s s' : St H} (h : Step s s') (hv : ∀ h, none ∉ s.chan (some h)) (k : H) :
    none ∉ s'.chan (some k) := by
  have hpool (vs : List H) :
      none ∉ Function.update s.chan (none : Que H) vs (some k) := by
    rw [Function.update_of_ne (Option.some_ne_none k)]
    exact hv k
  cases h with
  | @take fd h hs => exact hpool hs
  | @hand fd h hp hr =>
    change none ∉ Function.update s.chan (some h) (s.chan (some h) ++ [some fd]) (some k)
    by_cases hk : k = h
    · rw [hk, Function.update_self, List.mem_append, not_or]
      exact ⟨hv h, by simp⟩
    · rw [Function.update_of_ne fun he ↦ hk (Option.some.inj he)]
      exact hv k
  | @fetch h v vs hp hc =>
    change none ∉ Function.update s.chan (some h) vs (some k)
    by_cases hk : k = h
    · have hnot := hv h
      rw [hc, List.mem_cons, not_or] at hnot
      rw [hk, Function.update_self]
      exact hnot.2
    · rw [Function.update_of_ne fun he ↦ hk (Option.some.inj he)]
      exact hv k
  | @pool h => exact hpool (s.chan none ++ [h])
  | _ => exact hv k

theorem Step.places {s s' : St H} (h : Step s s') (hv : ∀ h, none ∉ s.chan (some h))
    (hp : ∀ t, (s.loc t).Of t) : ∀ t, (s'.loc t).Of t := by
  have hmove {t : Thread H} {l : Place H} (hl : l.Of t) (u : Thread H) :
      (Function.update s.loc t l u).Of u :=
    (Function.forall_update_iff s.loc fun u l ↦ l.Of u).mpr ⟨hl, fun u _ ↦ hp u⟩ u
  cases h with
  | read => exact hmove (sock_read ..).2.2
  | write => exact hmove (sock_write ..).2.2
  | @fetch h v vs hat hc =>
    cases v with
    | none => exact absurd (by rw [hc]; exact List.mem_cons_self) (hv h)
    | some fd => exact hmove trivial
  | _ => exact hmove trivial

variable [Fintype H]

omit [DecidableEq H] in
/-- What there is while no handler has anything and the slots are empty. -/
theorem stock_idle {X : Type} (w : (c : Que H) → Item H c → Multiset X)
    (f : Thread H → Place H → Multiset X) {s : St H} (hslot : ∀ h, s.chan (some h) = [])
    (hf : ∀ h, f (some h) (s.loc (some h)) = 0) :
    stock w f s = ((s.chan none).map (w none)).sum + f none (s.loc none) := by
  have hslots : ∑ h, ((s.chan (some h)).map (w (some h))).sum = 0 := by
    apply Finset.sum_eq_zero
    intro h _
    rw [hslot]
    rfl
  rw [stock, Fintype.sum_option, Fintype.sum_option, hslots, Finset.sum_eq_zero fun h _ ↦ hf h,
    add_zero, add_zero]

/-- The sockets that the threads and the slots have. -/
def held (s : St H) : Multiset Nat := stock sock (fun _ l ↦ bag l.sock) s

/-- A thread that goes on has the socket of its new place. -/
theorem held_goTo (s : St H) (t : Thread H) (l : Place H) (m : Mem H) :
    held { s.goTo t l with mem := m } + bag (s.loc t).sock = held s + bag l.sock :=
  stock_goTo sock (fun _ (l : Place H) ↦ bag l.sock) s l

/-- Every handler and every socket is in one place, and what is sent back is what was received. -/
structure Sound (arr : List H) (s : St H) : Prop where
  tokens : stock token (fun t l ↦ l.token t) s = arr
  socks : stock sock (fun _ l ↦ bag l.sock) s = s.mem.socks
  nodup : s.mem.socks.Nodup
  valid : ∀ h, none ∉ s.chan (some h)
  places : ∀ t, (s.loc t).Of t
  echo : Echo s

/-- What a thread has nobody else has. -/
theorem Sound.apart {arr : List H} {s : St H} (h : Sound arr s) {t u : Thread H} {fd : Nat}
    (ht : (s.loc t).sock = some fd) (hu : u ≠ t) : (s.loc u).sock ≠ some fd := by
  have hnd : (stock sock (fun _ (l : Place H) ↦ bag l.sock) s).Nodup := by
    rw [h.socks]
    exact Multiset.coe_nodup.mpr h.nodup
  intro he
  exact (apart_of_nodup sock (fun _ (l : Place H) ↦ bag l.sock) hnd (mem_bag.mpr ht)).1 u hu
    (mem_bag.mpr he)

omit [DecidableEq H] in
theorem Sound.mem_socks {arr : List H} {s : St H} (h : Sound arr s) {t : Thread H} {fd : Nat}
    (ht : (s.loc t).sock = some fd) : fd ∈ s.mem.socks := by
  have hle := held_le sock (fun _ (l : Place H) ↦ bag l.sock) s t
  rw [h.socks] at hle
  exact Multiset.mem_coe.mp (Multiset.mem_of_le hle (mem_bag.mpr ht))

/-- The sockets that threads and slots have are those that are open. -/
theorem Step.held_eq {s s' : St H} (h : Step s s') (hs : held s = s.mem.socks) :
    held s' = s'.mem.socks := by
  have hmove {t : Thread H} {l : Place H} {m : Mem H} (hl : l.sock = (s.loc t).sock)
      (hm : m.socks = s.mem.socks) : held { s.goTo t l with mem := m } = m.socks := by
    have hsum := held_goTo s t l m
    rw [hl, hs] at hsum
    rw [add_right_cancel hsum, hm]
  cases h with
  | @accept fd m hp hm =>
    rcases Option.ite_none_left_eq_some.mp hm with ⟨-, ⟨⟩⟩
    have hsum := held_goTo s none (.accepted fd)
      { s.mem with
        socks := fd :: s.mem.socks
        conns := Function.update s.mem.conns fd {} }
    rw [hp, hs] at hsum
    refine (add_zero _).symm.trans (hsum.trans ?_)
    rw [add_comm]
    rfl
  | refuse hp => exact hmove (by rw [hp]; rfl) rfl
  | take hp hc =>
    refine (stock_get hc ?_).trans hs
    rw [hp]
    exact (zero_add _).symm
  | hand hp hr =>
    refine (stock_put ?_).trans hs
    rw [hp]
    exact (add_zero _).symm
  | fetch hp hc =>
    refine (stock_get hc ?_).trans hs
    rw [hp]
    exact (add_zero _).symm
  | skip hp => exact hmove (by rw [hp]; rfl) rfl
  | start hp => exact hmove (by rw [hp]; rfl) rfl
  | @read h fd bytes hp =>
    rcases sock_read s.mem h fd bytes with ⟨hl, hm, -⟩
    exact hmove (by rw [hp, hl]; rfl) hm
  | @write h fd n hp =>
    rcases sock_write s.mem h fd n with ⟨hl, hm, -⟩
    exact hmove (by rw [hp, hl]; rfl) hm
  | pool hp =>
    refine (stock_put ?_).trans hs
    rw [hp]
    exact (zero_add _).symm
  | @close h fd hp =>
    have hsum := held_goTo s (some h) .waiting { s.mem with socks := s.mem.socks.erase fd }
    have hle := held_le sock (fun _ (l : Place H) ↦ bag l.sock) s (some h)
    change bag (s.loc (some h)).sock ≤ held s at hle
    rw [hp, hs] at hle hsum
    have hmem : fd ∈ s.mem.socks := Multiset.mem_coe.mp (Multiset.mem_of_le hle (mem_bag.mpr rfl))
    have hperm : (s.mem.socks : Multiset Nat) = ↑(s.mem.socks.erase fd) + {fd} := by
      rw [add_comm, Multiset.singleton_add, Multiset.cons_coe, Multiset.coe_eq_coe]
      exact List.perm_cons_erase hmem
    refine add_right_cancel (b := bag (Place.closing fd : Place H).sock) (hsum.trans ?_)
    exact (add_zero _).trans hperm

namespace Sound

variable {arr : List H} {s s' : St H}

/-- Nobody else writes to the connection that a thread has. -/
theorem not_writing (h : Sound arr s) {t : Thread H} {fd : Nat} (ht : (s.loc t).sock = some fd)
    {u : Thread H} (hu : u ≠ t) : s.loc u ≠ .writing fd := by
  intro hw
  refine h.apart ht hu ?_
  rw [hw]
  rfl

theorem step_echo (h : Sound arr s) (hs : Step s s') : Echo s' := by
  cases hs with
  | accept hp hm =>
    rcases Option.ite_none_left_eq_some.mp hm with ⟨hnew, -⟩
    refine h.echo.accept hm hp fun u hw ↦ hnew (h.mem_socks (t := u) ?_)
    rw [hw]
    rfl
  | read hp => exact h.echo.read hp (fun u hu ↦ h.not_writing (by rw [hp]; rfl) hu) _
  | write hp => exact h.echo.write hp (fun u hu ↦ h.not_writing (by rw [hp]; rfl) hu) _
  | refuse hp | take hp _ | hand hp _ | fetch hp _ | skip hp | start hp | pool hp | close hp =>
    refine h.echo.goTo rfl rfl rfl (fun fd hw ↦ ?_) (fun fd hw ↦ ?_)
    · cases hw
    · rw [hp] at hw
      cases hw

theorem effect {n : Nat} {t : Thread H} (h : Sound arr s)
    (he : Effect code (fun c ↦ (kind n c).room) s t s') : Sound arr s' where
  tokens := (balanced.stock_eq he).trans h.tokens
  socks := (step_of_effect he).held_eq h.socks
  nodup := (step_of_effect he).nodup h.nodup
  valid := (step_of_effect he).valid h.valid
  places := (step_of_effect he).places h.valid h.places
  echo := h.step_echo (step_of_effect he)

end Sound

/-! ### Where the server stops -/

namespace Sound

variable {arr : List H} {s : St H}

omit [DecidableEq H] in
/-- What is sent back on a connection is what was received, as far as it is sent. -/
theorem echoed (h : Sound arr s) {fd : Nat} (hf : (s.mem.conns fd).failed = false) :
    (s.mem.conns fd).sent <+: (s.mem.conns fd).received ∧
      ((∀ k, s.loc (some k) ≠ .writing fd) →
        (s.mem.conns fd).sent = (s.mem.conns fd).received) := by
  have hall (hk : ∀ k, s.loc (some k) ≠ .writing fd) :
      (s.mem.conns fd).sent = (s.mem.conns fd).received := by
    refine h.echo.others fd (fun t ht ↦ ?_) hf
    cases t with
    | none =>
      have hplace := h.places none
      rw [ht] at hplace
      exact hplace
    | some k => exact hk k ht
  refine ⟨?_, hall⟩
  by_cases hk : ∃ k, s.loc (some k) = .writing fd
  · rcases hk with ⟨k, hk⟩
    exact ⟨_, (h.echo.writing k fd hk).2 hf⟩
  · rw [hall fun k hp ↦ hk ⟨k, hp⟩]

/-- A handler that `main` has taken out of the pool has no connection, and none in its slot. -/
theorem handing (h : Sound arr s) (hd : arr.Nodup) {fd : Nat} {k : H}
    (hp : s.loc none = .handing fd k) : s.chan (some k) = [] ∧
      (s.loc (some k) = .waiting ∨ ∃ fd', s.loc (some k) = .closing fd') := by
  have hnd : (stock token (fun t (l : Place H) ↦ l.token t) s).Nodup := by
    rw [h.tokens]
    exact Multiset.coe_nodup.mpr hd
  have hmain : k ∈ (s.loc none).token none := by
    rw [hp]
    exact Multiset.mem_singleton_self k
  rcases apart_of_nodup token (fun t (l : Place H) ↦ l.token t) hnd hmain with ⟨hthreads, hslots⟩
  have hself := hthreads (some k) (Option.some_ne_none k)
  have hplace := h.places (some k)
  constructor
  · cases hc : s.chan (some k) with
    | nil => rfl
    | cons v vs =>
      have hv : v ∈ s.chan (some k) := by
        rw [hc]
        exact List.mem_cons_self
      cases v with
      | none => exact absurd hv (h.valid k)
      | some fd' => exact absurd (Multiset.mem_singleton_self k) (hslots (some k) _ hv)
  · cases hl : s.loc (some k) with
    | waiting => exact .inl rfl
    | closing fd' => exact .inr ⟨fd', rfl⟩
    | opened v =>
      rw [hl] at hself hplace
      cases v with
      | none => exact hplace.elim
      | some fd' => exact absurd (Multiset.mem_singleton_self k) hself
    | reading fd' | writing fd' | pooling fd' =>
      rw [hl] at hself
      exact absurd (Multiset.mem_singleton_self k) hself
    | accepting | accepted _ | handing _ _ | ended =>
      rw [hl] at hplace
      exact hplace.elim

omit [DecidableEq H] in
/-- `main` has one socket, and a handler one, besides those that have a handler each. -/
theorem length_socks_le (h : Sound arr s) :
    s.mem.socks.length ≤ arr.length + (Fintype.card H + 1) := by
  have hsocks := congrArg Multiset.card h.socks
  have htokens := congrArg Multiset.card h.tokens
  rw [card_stock, Multiset.coe_card] at hsocks htokens
  have hslots : ∑ c, ((s.chan c).map fun v ↦ (sock c v).card).sum ≤
      ∑ c, ((s.chan c).map fun v ↦ (token c v).card).sum := by
    apply Finset.sum_le_sum
    intro c _
    apply List.sum_le_sum
    intro v _
    cases c with
    | none => exact Nat.zero_le _
    | some h => cases v <;> exact Nat.le_refl _
  have hthreads : ∑ t, (bag (s.loc t).sock).card ≤
      ∑ t, (((s.loc t).token t).card + 1) := by
    apply Finset.sum_le_sum
    intro t _
    have hone := card_bag_le (s.loc t).sock
    omega
  rw [Finset.sum_add_distrib, Finset.sum_const, Finset.card_univ, Fintype.card_option,
    nsmul_eq_mul, Nat.mul_one] at hthreads
  change _ ≤ _ + (Fintype.card H + 1) at hthreads
  omega

/-- A handler stays where it is only if nobody has given it a connection. -/
theorem idle (h : Sound arr s) {b : World} {k : H}
    (hb : Blocked (fun c ↦ (kind arr.length c).room) s b (code (some k) (s.loc (some k)))) :
    s.loc (some k) = .waiting ∧ s.chan (some k) = [] := by
  have hplace := h.places (some k)
  cases hl : s.loc (some k) with
  | waiting =>
    rw [hl] at hb
    exact ⟨rfl, hb⟩
  | pooling fd =>
    rw [hl] at hb
    have hle := Multiset.card_le_card
      (held_add_chan_le token (fun t (l : Place H) ↦ l.token t) s (some k) none)
    rw [h.tokens, hl, Multiset.card_add, Multiset.coe_card] at hle
    have hall : ((s.chan none).map (token none)).sum = (s.chan none : List H) :=
      sum_map_singleton (s.chan none)
    rw [hall, Multiset.coe_card] at hle
    change 1 + _ ≤ _ at hle
    change arr.length ≤ (s.chan none).length at hb
    omega
  | opened v =>
    rw [hl] at hb hplace
    cases v with
    | none => exact hplace.elim
    | some fd => cases hb
  | reading fd | writing fd | closing fd =>
    rw [hl] at hb
    cases hb
  | accepting | accepted _ | handing _ _ | ended =>
    rw [hl] at hplace
    exact hplace.elim

/-- Where no thread can go on, `main` has ended, all handlers are in the pool, and no socket is
open. -/
theorem stuck (h : Sound arr s) (hne : arr ≠ []) {b : World}
    (hw : ∀ fd, b.conn = some fd → fd ∉ s.mem.socks)
    (hb : ∀ t, Blocked (fun c ↦ (kind arr.length c).room) s b (code t (s.loc t))) :
    s.loc none = .ended ∧ (∀ k, s.loc (some k) = .waiting ∧ s.chan (some k) = []) ∧
      s.mem.socks = [] ∧ (s.chan none : List H).Perm arr := by
  have hidle (k : H) := h.idle (hb (some k))
  have htokens := h.tokens
  have hsocks := h.socks
  rw [stock_idle _ _ (fun k ↦ (hidle k).2) fun k ↦ by rw [(hidle k).1]; rfl] at htokens hsocks
  rw [sum_sock_pool, zero_add] at hsocks
  have hpool : ((s.chan none).map (token none)).sum = (s.chan none : List H) :=
    sum_map_singleton (s.chan none)
  rw [hpool] at htokens
  have hmain := hb none
  have hplace := h.places none
  cases hl : s.loc none with
  | ended =>
    rw [hl] at htokens hsocks
    refine ⟨rfl, hidle, Multiset.coe_eq_zero _ |>.mp hsocks.symm, ?_⟩
    exact Multiset.coe_eq_coe.mp ((add_zero _).symm.trans htokens)
  | accepting =>
    rw [hl] at hmain
    dsimp only [code, Blocked] at hmain
    cases hc : b.conn with
    | none =>
      rw [hc] at hmain
      cases hmain
    | some fd =>
      rw [hc] at hmain
      dsimp only [Mem.accept] at hmain
      rw [if_neg (hw fd hc)] at hmain
      cases hmain
  | accepted fd =>
    rw [hl] at hmain htokens
    change s.chan none = [] at hmain
    rw [hmain] at htokens
    exact absurd (Multiset.coe_eq_zero arr |>.mp htokens.symm) hne
  | handing fd k =>
    rw [hl] at hmain
    change 1 ≤ (s.chan (some k)).length at hmain
    rw [(hidle k).2] at hmain
    cases hmain
  | waiting | opened _ | reading _ | writing _ | pooling _ | closing _ =>
    rw [hl] at hplace
    exact hplace.elim

end Sound

/-! ### Runs with the code of the queues -/

omit [DecidableEq H] in
/-- All handlers of a new server are in the pool, and no socket is open. -/
theorem sound_start {arr : List H} {s : St H} {buf : H → Buffer UInt8} (hl : s.loc = startPlace)
    (hm : s.mem = startMem buf) (hpool : s.chan none = arr) (hslot : ∀ h, s.chan (some h) = []) :
    Sound arr s := by
  have hloc (h : H) : s.loc (some h) = .waiting := by rw [hl]; rfl
  have hmain : s.loc none = .accepting := by rw [hl]; rfl
  refine ⟨?_, ?_, ?_, fun h ↦ ?_, fun t ↦ ?_, ?_⟩
  · rw [stock_idle _ _ hslot fun h ↦ by rw [hloc]; rfl, hmain, hpool]
    exact (add_zero _).trans (sum_map_singleton arr)
  · rw [stock_idle _ _ hslot fun h ↦ by rw [hloc]; rfl, hmain, sum_sock_pool, hm]
    rfl
  · rw [hm]
    exact List.nodup_nil
  · rw [hslot]
    exact List.not_mem_nil
  · cases t with
    | none =>
      rw [hmain]
      trivial
    | some h =>
      rw [hloc]
      trivial
  · constructor
    · intro h fd hw
      rw [hloc] at hw
      cases hw
    · intro fd _ _
      rw [hm]
      rfl

theorem start_sound {arr : List H} {s : Server H arr.length} (h : (machine arr).init s) :
    s.Fresh ∧ Sound arr (s.abs code) := by
  rcases h with ⟨buf, cells, q, val, hcells, hq, rfl⟩
  rcases Pool.create_spec hcells with ⟨q', hq', hquiet, hcont, hcap⟩
  cases hq.symm.trans hq'
  have hfresh : Sys.Fresh
      ({ loc := startPlace, chan := startChan arr.length q val, mem := startMem buf } :
        Server H arr.length) := by
    have hrests (c : Que H) : (kind arr.length c).Rests (startChan arr.length q val c) := by
      cases c with
      | none => exact ⟨q, hquiet, hcap, rfl⟩
      | some h => exact ⟨val, rfl⟩
    exact ⟨fun c ↦ (hrests c).inv, fun c ↦ (hrests c).idle⟩
  refine ⟨hfresh, sound_start ?_ rfl hcont fun _ ↦ rfl⟩
  funext t
  exact Sys.place_of_idle fun c ↦ hfresh.idle c t

/-- Every run of the server is sound. -/
theorem sound_of_reachable {arr : List H} {s : Server H arr.length}
    (h : (machine arr).Reachable s) : s.Good code ∧ Sound arr (s.abs code) := by
  have hstart (s : Server H arr.length) (h : (machine arr).init s) :
      s.Fresh ∧ Sound arr (s.abs code) := start_sound h
  rcases Sys.refines hstart h with ⟨hg, hr⟩
  refine ⟨hg, hr.invariant (fun _ ↦ id) ?_⟩
  rintro s ⟨t, b⟩ s' hs hstep
  rw [ChannelKind.caps] at hstep
  exact hs.effect (step_effect hstep)

/-- A server with one handler, whose buffer has two bytes, before its first step. -/
def begun : Server Unit 1 where
  loc := startPlace
  chan := startChan 1 ((Pool.create [()] [()]).getD MsgQueue.unset) none
  mem := startMem fun _ ↦ Buffer.alloc [0, 0]

theorem init_begun : (machine [()]).init begun := ⟨_, [()], _, none, rfl, rfl, rfl⟩

/-- A connection comes, and bytes on it. -/
def busy : World := { conn := some 7, bytes := [1, 2, 3], count := 1 }

/-- Nothing comes any more. -/
def quiet : World := { conn := none, bytes := [], count := 0 }

/-- So many steps of a thread. -/
def turns (t : Thread Unit) (n : Nat) (w : World) : List (Thread Unit × World) :=
  List.replicate n (t, w)

/-- Every socket that is open is with one thread or in one slot, at most two to a handler and one
more; and when `main` gives a handler a connection the handler has none, nor one in its slot. -/
theorem sockets_kept {arr : List H} (hd : arr.Nodup) {s : Server H arr.length}
    (h : (machine arr).Reachable s) :
    held (s.abs code) = s.mem.socks ∧ s.mem.socks.Nodup ∧
      s.mem.socks.length ≤ arr.length + (Fintype.card H + 1) ∧
      ∀ fd k, (s.abs code).loc none = .handing fd k → (s.abs code).chan (some k) = [] ∧
        ((s.abs code).loc (some k) = .waiting ∨
          ∃ fd', (s.abs code).loc (some k) = .closing fd') := by
  rcases sound_of_reachable h with ⟨-, hs⟩
  exact ⟨hs.socks, hs.nodup, hs.length_socks_le, fun fd k hp ↦ hs.handing hd hp⟩

/-- `main` has the first connection and the handler for it. -/
theorem sockets_kept_first : ∃ s : Server Unit 1, (s.abs code).loc none = .handing 7 () ∧
    held (s.abs code) = [7] ∧ (s.abs code).chan (some ()) = [] := by
  have hsome : ((machine [()]).run begun (turns none 1 busy ++ turns none 4 quiet)).map
      (fun s ↦ ((s.abs code).loc none, s.mem.socks)) = some (.handing 7 (), [7]) := by decide
  rcases Option.map_eq_some_iff.mp hsome with ⟨s, hs, hl⟩
  rcases Prod.mk.inj hl with ⟨hm, hsocks⟩
  rcases sockets_kept (by decide) ((Machine.Reachable.init init_begun).run hs) with
    ⟨hheld, -, -, hhand⟩
  exact ⟨s, hm, hheld.trans (congrArg _ hsocks), (hhand 7 () hm).1⟩

/-- Unless a `send` failed, what is sent back on a connection is what was received on it, but for
what its handler is still writing; and the server stops only when `main` has ended and all that was
received is sent back, all sockets are closed, and all handlers are in the pool. -/
theorem all_echoed {arr : List H} {s : Server H arr.length} (h : (machine arr).Reachable s) :
    (∀ fd, (s.mem.conns fd).failed = false →
      (s.mem.conns fd).sent <+: (s.mem.conns fd).received ∧
        ((∀ k, (s.abs code).loc (some k) ≠ .writing fd) →
          (s.mem.conns fd).sent = (s.mem.conns fd).received)) ∧
      (arr ≠ [] → ∀ b, (∀ fd, b.conn = some fd → fd ∉ s.mem.socks) →
        (∀ t, s.step code (t, b) = none) →
          (s.abs code).loc none = .ended ∧ (∀ k, (s.abs code).loc (some k) = .waiting) ∧
            s.mem.socks = [] ∧ ((s.abs code).chan none : List H).Perm arr ∧
            ∀ fd, (s.mem.conns fd).failed = false →
              (s.mem.conns fd).sent = (s.mem.conns fd).received) := by
  rcases sound_of_reachable h with ⟨hg, hs⟩
  refine ⟨fun fd hf ↦ hs.echoed hf, fun hne b hw hnone ↦ ?_⟩
  have hstep (t : Thread H) := hg.stuck hnone t
  rw [ChannelKind.caps] at hstep
  rcases hs.stuck hne hw fun t ↦ step_eq_none_iff.mp (hstep t) with ⟨hmain, hidle, hsocks, hpool⟩
  refine ⟨hmain, fun k ↦ (hidle k).1, hsocks, hpool, fun fd hf ↦ (hs.echoed hf).2 fun k hp ↦ ?_⟩
  cases (hidle k).1.symm.trans hp

/-- Two bytes are sent back one by one, the connection ends, and then the server. -/
theorem all_echoed_two : ∃ s : Server Unit 1,
    s.mem.conns 7 = { received := [1, 2], sent := [1, 2] } ∧ (s.abs code).loc none = .ended ∧
      s.mem.socks = [] ∧ ((s.abs code).chan none : List Unit).Perm [()] := by
  have hsome : ((machine [()]).run begun (turns none 1 busy ++ turns none 8 quiet ++
      turns (some ()) 5 quiet ++ turns (some ()) 4 busy ++ turns (some ()) 7 quiet ++
        turns none 1 quiet)).map
        (fun s ↦ (s.mem.conns 7, decide (∀ t, (s.step code (t, quiet)).isNone = true))) =
      some ({ received := [1, 2], sent := [1, 2] }, true) := by decide
  rcases Option.map_eq_some_iff.mp hsome with ⟨s, hs, hl⟩
  rcases Prod.mk.inj hl with ⟨hc, hn⟩
  have hnone (t : Thread Unit) : s.step code (t, quiet) = none :=
    Option.isNone_iff_eq_none.mp (of_decide_eq_true hn t)
  have hw : ∀ fd, quiet.conn = some fd → fd ∉ s.mem.socks := fun fd hfd ↦ by cases hfd
  rcases (all_echoed ((Machine.Reachable.init init_begun).run hs)).2 (by decide) quiet hw hnone
    with ⟨hm, -, hsocks, hpool, -⟩
  exact ⟨s, hc, hm, hsocks, hpool⟩

end CtrlrFx.Io.MtEchoServer
