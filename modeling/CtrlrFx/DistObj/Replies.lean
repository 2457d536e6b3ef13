import CtrlrFx.DistObj.Client
import Mathlib.Data.List.Forall2

/-!
# Replies and requests

Calls of `send` one after another, on a port at which a read may time out. The server answers
every command once, in order and with the command's id, but an answer may arrive late, and
what a call has left unread is what the next one reads.
-/

namespace CtrlrFx.DistObj
open Base Data Io

/-- A call of `send`, the server's answer to it, and what arrives at the port during the call. -/
structure Exchange where
  packet : Buffer UInt8
  rsp : Buffer UInt8
  reply : Int32
  body : List UInt8
  arrives : List Arrival

namespace Exchange

variable (e : Endian)

/-- Id in the command header with which the payload of the packet begins. -/
def msgId (x : Exchange) : UInt32 := NativeRep.value e (Block.read x.packet.unread 0 4)

/-- The headers of the answer, which echoes the id. -/
def rspHdrs (x : Exchange) : List UInt8 :=
  PktHdr.encode e 0 msgTypeRsp (UInt32.ofNat (8 + x.body.length)) ++
    (NativeRep.bytes e (x.msgId e) ++ NativeRep.bytes e x.reply)

/-- The server's answer. -/
def response (x : Exchange) : List UInt8 := x.rspHdrs e ++ x.body

/-- The packet is in order, and the response buffer is empty and has room for the answer. -/
structure Fits (x : Exchange) : Prop where
  packet : x.packet.Valid
  size : x.packet.unread.length < 2 ^ 31
  pos : x.rsp.pos = 0
  room : x.body.length ≤ x.rsp.capacity
  body : x.body.length + 8 < 2 ^ 32

/-- A result that is no error is that of the call's own answer, and so is the body. -/
def OwnReply (x : Exchange) (r : Int32 × Buffer UInt8) : Prop :=
  0 ≤ r.1 → r.1 = x.reply ∧ (x.body = [] → r.2 = x.rsp) ∧
    (x.body ≠ [] → r.2.Valid ∧ r.2.pos = 0 ∧ r.2.unread <+: x.body)

end Exchange

section Calls

variable {σ : Type} (e : Endian)

/-- The client when more has arrived. -/
def arriving (d : DistObjSrvr σ) (x : Exchange) : DistObjSrvr σ :=
  { d with port := { d.port with rd := d.port.rd ++ x.arrives } }

/-- One call of `send`. -/
def exchange (d : DistObjSrvr σ) (x : Exchange) :
    Int32 × Buffer UInt8 × Buffer UInt8 × DistObjSrvr σ :=
  (arriving d x).send e msgTypeCmd x.packet x.rsp

/-- Results and response buffers of the calls. -/
def results (d : DistObjSrvr σ) : List Exchange → List (Int32 × Buffer UInt8)
  | [] => []
  | x :: xs =>
    ((exchange e d x).1, (exchange e d x).2.2.1) :: results (exchange e d x).2.2.2 xs

/-- The bytes that arrive are those of the answers, in order, and none before the server sends
it; `late` are those still under way. -/
def Conversation (late : List UInt8) : List Exchange → Prop
  | [] => True
  | x :: xs => ∃ late', Port.content x.arrives ++ late' = late ++ x.response e ∧
      Conversation late' xs

/-- Every call but the last finds its answer whole before a read times out. -/
def Prompt (d : DistObjSrvr σ) : List Exchange → Prop
  | x :: y :: xs => (x.response e).length ≤ (arriving d x).port.pending.length ∧
      Prompt (exchange e d x).2.2.2 (y :: xs)
  | _ => True

end Calls

variable {σ : Type} {e : Endian}

namespace Exchange

theorem length_rspHdrs (x : Exchange) : (x.rspHdrs e).length = 16 := by
  simp only [rspHdrs, PktHdr.length_encode, List.length_append, NativeRep.length_bytes]
  rfl

/-- An error is nobody's reply. -/
theorem ownReply_of_neg (x : Exchange) {r : Int32 × Buffer UInt8} (h : r.1 < 0) : x.OwnReply r := by
  intro h0
  exact absurd h0 (Int32.not_le.mpr h)

end Exchange

/-- A call writes its packet, and then receives from what has arrived. -/
theorem exchange_eq {d : DistObjSrvr σ} {x : Exchange} (hl : d.port.Lossless) (hx : x.Fits) :
    ∃ b q, q.port.Lossless ∧ q.port.rd = (arriving d x).port.rd ∧
      exchange e d x =
        ((DistObjSrvr.recvRsp e q x.rsp).1, b, (DistObjSrvr.recvRsp e q x.rsp).2) := by
  obtain ⟨b, p, hsend, hlp, hw⟩ := DistObjSrvr.sendCmd_spec (e := e) (d := arriving d x) hl
    hx.packet hx.size msgTypeCmd
  refine ⟨b, { arriving d x with port := p }, hlp, hw.rd, ?_⟩
  unfold exchange DistObjSrvr.send
  rw [hsend]
  rfl

/-- A call that finds the beginning of its own answer returns that or an error, and reads the
answer to its end if it is all there. -/
theorem exchange_own {d : DistObjSrvr σ} {x : Exchange} (hl : d.port.Lossless) (hx : x.Fits)
    (hp : (arriving d x).port.pending <+: x.response e) :
    x.OwnReply ((exchange e d x).1, (exchange e d x).2.2.1) ∧
      ((x.response e).length ≤ (arriving d x).port.pending.length →
        (exchange e d x).2.2.2.port.Lossless ∧
          (exchange e d x).2.2.2.port.coming + (x.response e).length =
            (arriving d x).port.coming) := by
  rcases exchange_eq (e := e) hl hx with ⟨b, q, hlq, hrd, hex⟩
  have hpend : q.port.pending = (arriving d x).port.pending := congrArg Port.lead hrd
  have hcoming : q.port.coming = (arriving d x).port.coming := congrArg Port.count hrd
  have hresp : (x.response e).length = 16 + x.body.length := by
    rw [Exchange.response, List.length_append, Exchange.length_rspHdrs]
  rw [hex, ← hcoming, ← hpend]
  rw [← hpend] at hp
  by_cases hshort : q.port.pending.length < 16
  · constructor
    · apply Exchange.ownReply_of_neg
      rw [DistObjSrvr.recvRsp_of_short hshort]
      decide
    · intro hle
      omega
  · -- both headers are there, and what follows them begins the body
    have hhdrs : x.rspHdrs e <+: q.port.pending := by
      apply List.prefix_of_prefix_length_le (List.prefix_append _ _) hp
      rw [Exchange.length_rspHdrs]
      omega
    rcases hhdrs with ⟨got, hgot⟩
    have hbody : got <+: x.body := by
      rw [← hgot] at hp
      exact (List.prefix_append_right_inj _).mp hp
    have hlen := congrArg List.length hgot
    rw [List.length_append, Exchange.length_rspHdrs] at hlen
    obtain ⟨b', p', hrecv, hnil, hcons, htook⟩ := DistObjSrvr.recvRsp_spec (e := e) hgot.symm hbody
      (PktHdr.length_encode _ _ _ _)
      (by rw [List.length_append, NativeRep.length_bytes, NativeRep.length_bytes]; rfl)
      (NativeRep.value_bytes _ _) hx.pos hx.room hx.body
    rw [hrecv]
    constructor
    · intro _
      refine ⟨?_, hnil, fun hne ↦ ?_⟩
      · have hdrop : (NativeRep.bytes e (x.msgId e) ++ NativeRep.bytes e x.reply).drop
            (NativeRep.bytes e (x.msgId e)).length = NativeRep.bytes e x.reply := List.drop_left
        rw [NativeRep.length_bytes] at hdrop
        change NativeRep.value e (List.drop (NativeRep.size UInt32) _) = x.reply
        rw [hdrop, NativeRep.value_bytes]
      · rcases hcons hne with ⟨hv, hpos, hun⟩
        refine ⟨hv, hpos, ?_⟩
        rw [hun]
        exact hbody
    · intro hle
      have ht := htook (hbody.eq_of_length_le (by omega))
      constructor
      · intro r hr
        rw [ht.wr] at hr
        exact hlq r hr
      · have hfull : (x.response e).length = q.port.pending.length := by
          have := hbody.length_le
          omega
        rw [hfull]
        exact ht.coming (Nat.le_refl _)

/-- Calls of which each but the last reads its answer whole, from a port at which nothing is
left to come. -/
theorem replies_own_of_coming {xs : List Exchange} {d : DistObjSrvr σ} (hl : d.port.Lossless)
    (h0 : d.port.coming = 0) (hx : ∀ x ∈ xs, x.Fits) (hc : Conversation e [] xs)
    (hw : Prompt e d xs) : List.Forall₂ Exchange.OwnReply xs (results e d xs) := by
  induction xs generalizing d with
  | nil => exact .nil
  | cons x xs ih =>
    rcases hc with ⟨late, hcont, hrest⟩
    rw [List.nil_append] at hcont
    have hnone : Port.content d.port.rd = [] := by
      apply List.eq_nil_of_length_eq_zero
      rw [Port.length_content]
      exact h0
    have harr : Port.content (arriving d x).port.rd = Port.content x.arrives := by
      change Port.content (d.port.rd ++ x.arrives) = _
      rw [Port.content_append, hnone, List.nil_append]
    have hp : (arriving d x).port.pending <+: x.response e := by
      apply (Port.lead_prefix _).trans
      rw [harr, ← hcont]
      exact List.prefix_append _ _
    rcases exchange_own hl (hx x List.mem_cons_self) hp with ⟨hown, hread⟩
    apply List.Forall₂.cons hown
    cases xs with
    | nil => exact .nil
    | cons y ys =>
      rcases hw with ⟨hprompt, hw⟩
      rcases hread hprompt with ⟨hl', hcoming⟩
      have hlen : (arriving d x).port.coming + late.length = (x.response e).length := by
        rw [← hcont, List.length_append, ← harr, Port.length_content]
        rfl
      have hlate : late = [] := by
        apply List.eq_nil_of_length_eq_zero
        omega
      rw [hlate] at hrest
      apply ih hl' (by omega) _ hrest hw
      intro z hz
      exact hx z (List.mem_cons_of_mem _ hz)

/-- As long as no answer arrives late, every reply is that of the call's own request. -/
theorem replies_own {d : DistObjSrvr σ} {xs : List Exchange} (hl : d.port.Lossless)
    (hrd : d.port.rd = []) (hx : ∀ x ∈ xs, x.Fits) (hc : Conversation e [] xs)
    (hw : Prompt e d xs) : List.Forall₂ Exchange.OwnReply xs (results e d xs) := by
  apply replies_own_of_coming hl _ hx hc hw
  rw [Port.coming, hrd]
  rfl

/-- A call of an operation without parameters whose message has this id, with the answer `reply`
and no body. -/
def plainCall (id : UInt8) (reply : Int32) (arrives : List Arrival) : Exchange where
  packet := .fixed [id, 0, 0, 0, 1, 0, 2, 0, 0, 0, 0, 0]
  rsp := .fixed []
  reply := reply
  body := []
  arrives := arrives

theorem fits_plainCall (id : UInt8) (reply : Int32) (arrives : List Arrival) :
    (plainCall id reply arrives).Fits := by
  constructor
  · exact ⟨Nat.zero_le _, Nat.le_refl _⟩
  · change 12 < 2 ^ 31
    decide
  · rfl
  · exact Nat.le_refl _
  · change 0 + 8 < 2 ^ 32
    decide

/-- Answer to the call with id `id`. -/
def plainAnswer (id : UInt8) (reply : UInt8) : Arrival :=
  .chunk magicC [magicX, 0, msgTypeRsp, 8, 0, 0, 0, id, 0, 0, 0, reply, 0, 0, 0]

/-- A client at whose port nothing has arrived. -/
def plainClient : DistObjSrvr Unit := .create (.deliver []) [] [] []

/-- Two calls that are answered at once. -/
theorem replies_own_two :
    List.Forall₂ Exchange.OwnReply
      [plainCall 1 5 [plainAnswer 1 5], plainCall 2 7 [plainAnswer 2 7]]
      (results .little plainClient
        [plainCall 1 5 [plainAnswer 1 5], plainCall 2 7 [plainAnswer 2 7]]) := by
  apply replies_own
  · intro r hr
    cases hr
  · rfl
  · intro x hx
    simp only [List.mem_cons, List.not_mem_nil, or_false] at hx
    rcases hx with rfl | rfl
    · exact fits_plainCall _ _ _
    · exact fits_plainCall _ _ _
  · exact ⟨[], by decide, [], by decide, trivial⟩
  · exact ⟨by decide, trivial⟩

/-- The read of the first call times out, and its answer comes before that to the second, which
takes it for its own. -/
theorem late_reply_not_own :
    Conversation .little []
      [plainCall 1 5 [.err], plainCall 2 7 [plainAnswer 1 5, plainAnswer 2 7]] ∧
    (results .little plainClient
      [plainCall 1 5 [.err], plainCall 2 7 [plainAnswer 1 5, plainAnswer 2 7]]).map Prod.fst =
        [-4, 5] ∧
    ¬List.Forall₂ Exchange.OwnReply
      [plainCall 1 5 [.err], plainCall 2 7 [plainAnswer 1 5, plainAnswer 2 7]]
      (results .little plainClient
        [plainCall 1 5 [.err], plainCall 2 7 [plainAnswer 1 5, plainAnswer 2 7]]) := by
  refine ⟨⟨_, rfl, [], by decide, trivial⟩, by decide, ?_⟩
  intro h
  cases h with
  | cons _ h =>
    cases h with
    | cons h _ =>
      have := (h (by decide)).1
      revert this
      decide

end CtrlrFx.DistObj
