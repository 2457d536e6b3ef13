import CtrlrFx.Base.Machine
import CtrlrFx.DistObj.Pass

/-!
# Failed commands

What the server sends when a command fails: `src/DistObj/DistObjSrvr.cpp:194–231`. The comment there
has the response thrown away and just the error code sent back; the branch below it only prints.
The object writes into the server's own buffer, and what it has put there is sent.
-/

namespace CtrlrFx.DistObj
open Base Data Io

/-- The message size that a header was given is the one that it holds. -/
theorem PktHdr.msgSize_store (e : Endian) (h : PktHdr) (t : UInt8) (m : UInt32) :
    PktHdr.msgSize e ((h.store 3 [t]).store 4 (NativeRep.bytes e m)).bytes = m := by
  have hm : (NativeRep.bytes e m).length = 4 := NativeRep.length_bytes e m
  have h8 : (h.store 3 [t]).bytes.length = 8 := (h.store 3 [t]).size_eq
  have hread := Block.read_write (h.store 3 [t]).bytes 4 (NativeRep.bytes e m) (by
    rw [hm, h8])
  have hdrop : (Block.write (h.store 3 [t]).bytes 4 (NativeRep.bytes e m)).drop 4 =
      NativeRep.bytes e m := by
    rw [hm, Block.read, List.take_of_length_le (by rw [List.length_drop, Block.length_write, h8])]
      at hread
    exact hread
  change NativeRep.value e ((Block.write (h.store 3 [t]).bytes 4 _).drop 4) = m
  rw [hdrop, NativeRep.value_bytes]

namespace Run

variable {σ : Type} (e : Endian)

/-- The passes as a machine, from any server and any values of the local variables. -/
def machine : Machine (Run σ) Entry where
  init _ := True
  step s a := some (s.pass e a)

/-- A pass that takes a header, and the packet behind it is a command. -/
def Commands (s : Run σ) (a : Entry) : Prop :=
  s.running = true ∧ s.srvr.quit = false ∧ a.quit = false ∧
    0 ≤ (getPktHdr a.quit a.magic s.srvr.port s.pktHdr).1 ∧
    PktHdr.msgType (s.atPacket a).pktHdr.bytes = msgTypeCmd

instance (s : Run σ) (a : Entry) : Decidable (Commands s a) := by
  unfold Commands
  infer_instance

/-- The state in which the object has returned; `src/DistObj/DistObjSrvr.cpp:170–202`. -/
def answered (s : Run σ) : Run σ :=
  let c := s.readPayload e
  let h := getCmdHdr e c.1 s.cmdHdr
  { s with
    cmdHdr := h.1
    objs := (s.reply e).objs
    srvr := { s.srvr with
      cmdBuf := (s.reply e).param.buf
      rspBuf := (s.reply e).rsp.buf
      port := c.2 }
    calls := s.calls ++ [{ hdr := h.1, param := h.2.buf.unread }] }

/-- Bytes of the body that a response asks the port to write, if its size is not 0;
`src/DistObj/DistObjSrvr.cpp:229–230`. -/
def bodySize (s : Run σ) (ret : Int32) : Nat :=
  if PktHdr.msgSize e (s.respond e ret).pktHdr.bytes > 0 then s.srvr.rspBuf.flip.available else 0

/-- A response that is nothing but its header. -/
structure Bare (s : Run σ) (ret : Int32) : Prop where
  msgSize : PktHdr.msgSize e (s.respond e ret).pktHdr.bytes = 8
  body : s.bodySize e ret = 0

/-- If the command of a pass fails, the response is bare. -/
def FailsBare (s : Run σ) (a : Entry) : Prop :=
  Commands s a → ((s.atPacket a).reply e).ret < 0 →
    Bare e ((s.atPacket a).answered e) ((s.atPacket a).reply e).ret

/-- If the command of a pass fails, the object leaves the response buffer at its start. -/
def Tidy (s : Run σ) (a : Entry) : Prop :=
  Commands s a → ((s.atPacket a).reply e).ret < 0 → ((s.atPacket a).reply e).rsp.buf.pos = 0

/-- A command is answered with what the object returned. -/
theorem pass_of_commands {s : Run σ} {a : Entry} (h : Commands s a) :
    s.pass e a = ((s.atPacket a).answered e).respond e ((s.atPacket a).reply e).ret := by
  obtain ⟨hrun, hquit, haq, hret, htype⟩ := h
  have hneg : ¬(a.quit = true ∨ (getPktHdr a.quit a.magic s.srvr.port s.pktHdr).1 < 0) := by
    rintro (hq | hlt)
    · rw [haq] at hq
      cases hq
    · omega
  have hserve : s.pass e a = (s.atPacket a).serve e := by
    rw [pass, if_neg (by simp [hrun]), if_neg (by simp [hquit])]
    dsimp only
    rw [if_neg hneg, atPacket, headed, haq]
  rw [hserve, serve]
  dsimp only
  rw [if_neg (not_not.mpr htype)]
  rfl

/-- A response is bare exactly if nothing was put into its buffer. -/
theorem bare_iff (s : Run σ) (ret : Int32) : Bare e s ret ↔ s.srvr.rspBuf.pos = 0 := by
  have hav : s.srvr.rspBuf.flip.available = s.srvr.rspBuf.pos :=
    Buffer.available_of_le (Nat.zero_le _)
  have hsize : PktHdr.msgSize e (s.respond e ret).pktHdr.bytes =
      UInt32.ofNat (8 + s.srvr.rspBuf.pos) := by
    rw [← hav]
    exact PktHdr.msgSize_store e _ _ _
  constructor
  · rintro ⟨h8, hbody⟩
    have hgt : (8 : UInt32) > 0 := by decide
    rwa [bodySize, h8, if_pos hgt, hav] at hbody
  · intro h0
    constructor
    · rw [hsize, h0]
      rfl
    · rw [bodySize, hav, h0, ite_self]

/-- In a run of `run`, on any server with any objects, whatever earlier passes left in its buffers,
every failed command is answered by the header alone exactly if at every one of them the
object leaves the response buffer at its start. -/
theorem failed_bare_iff (s : Run σ) (as : List Entry) :
    (machine e).Along (FailsBare e) s as ↔ (machine e).Along (Tidy e) s as := by
  apply Machine.along_congr (I := fun _ ↦ True) _ (fun _ _ _ _ _ _ ↦ trivial) trivial
  intro s a _
  unfold FailsBare Tidy
  apply imp_congr_right
  intro _
  exact imp_congr_right fun _ ↦ bare_iff e _ _

/-- An unknown object is reported by the header alone. -/
theorem bare_of_unknown {s : Run σ}
    (h : s.srvr.objReg.getObj (getCmdHdr e (s.readPayload e).1 s.cmdHdr).1.tgtObj = none) :
    (s.reply e).ret = -6 ∧ Bare e (s.answered e) (s.reply e).ret := by
  have hreply : s.reply e = { ret := -6, param := (getCmdHdr e (s.readPayload e).1 s.cmdHdr).2
                              rsp := BufCodec.clear { buf := s.srvr.rspBuf, good := true }
                              objs := s.objs } := by
    unfold reply DistObjRegistry.dispatch
    dsimp only
    rw [h]
  refine ⟨by rw [hreply], (bare_iff e _ _).mpr ?_⟩
  change (s.reply e).rsp.buf.pos = 0
  rw [hreply]
  rfl

/-- What a failed command sends on a lossless port, if the object left the response buffer at its
start: the two headers, of sixteen bytes. -/
theorem wrote_of_tidy {s : Run σ} {a : Entry} (hc : Commands s a)
    (hret : ((s.atPacket a).reply e).ret < 0) (ht : Tidy e s a)
    (hl : ((s.atPacket a).answered e).srvr.port.Lossless)
    (hv : ((s.atPacket a).reply e).rsp.buf.Valid) :
    ∃ hdrs : List UInt8, hdrs.length = 16 ∧
      Port.Wrote ((s.atPacket a).answered e).srvr.port hdrs (s.pass e a).srvr.port := by
  have h0 := ht hc hret
  have hpos : ((s.atPacket a).answered e).srvr.rspBuf.pos = 0 := h0
  have hwritten : ((s.atPacket a).answered e).srvr.rspBuf.written = [] := by
    rw [Buffer.written, hpos, List.take_zero]
  obtain ⟨hw, -⟩ := respond_wrote e ((s.atPacket a).reply e).ret hl hv (by rw [hpos]; decide)
  rw [hwritten, List.append_nil, ← pass_of_commands e hc] at hw
  refine ⟨_, ?_, hw⟩
  rw [List.length_append, List.length_append, PktHdr.size_eq, NativeRep.length_bytes,
    NativeRep.length_bytes]
  rfl

/-! ### An object that fails late -/

/-- An object that puts a word and then fails. -/
def faltering : IDistObj Unit where
  invoke _ param rsp _ :=
    { ret := -7, param, rsp := (rsp.put .little (0x04030201 : UInt32)).2, objs := () }
  capacity_param _ _ _ _ := rfl
  capacity_rsp _ _ _ _ := BufCodec.capacity_put .little _ _

/-- A server with this object under the key 5, which is sent one command. -/
def falteringSrvr : DistObjSrvr Unit :=
  ((DistObjSrvr.create
    (.deliver [[67, 88, 0, 0, 12, 0, 0, 0, 9, 0, 0, 0, 5, 0, 0, 0, 1, 0, 0, 0]])
    (List.replicate 4 { key := 0, obj := none })
    (List.replicate 16 0) (List.replicate 16 0)).registerObj 5 (some faltering)).2

/-- The word that the object put is sent behind the error code, in a packet of twelve bytes. -/
theorem faltering_not_bare :
    ((start falteringSrvr default default ()).pass .little default).srvr.port.sent =
      [67, 88, 0, 1, 12, 0, 0, 0, 9, 0, 0, 0, 249, 255, 255, 255, 1, 2, 3, 4] ∧
    ¬(machine .little).Along (FailsBare .little) (start falteringSrvr default default ())
      [default] := by
  refine ⟨by decide, ?_⟩
  intro h
  have hc : Commands (start falteringSrvr default default ()) default := by decide
  have hret : (((start falteringSrvr default default ()).atPacket default).reply .little).ret < 0 :=
    by decide
  have hbare := (h.1 hc hret).msgSize
  revert hbare
  decide

end Run
end CtrlrFx.DistObj
