import CtrlrFx.DistObj.Output
import CtrlrFx.DistObj.Transparency

/-!
# Exchanges with any object

A client and a server joined by two byte pipes, whatever the objects of the server are. What
`send` gives the caller is the outcome of the dispatch that the server made of the command.
-/

namespace CtrlrFx.DistObj
open Base Data Io

/-- A client and a server whose ports are joined. -/
structure Peers (σ : Type) where
  client : DistObjSrvr Unit
  server : Run σ

namespace Peers

variable {σ : Type} (e : Endian) (j : Journey)

/-- The server serves the bytes that the client wrote, while the client waits. -/
def serve (bs : List UInt8) (s : Run σ) : Run σ :=
  Run.pass e { s with srvr := { s.srvr with port := Link.arrive s.srvr.port (j.up bs) } }
    { magic := j.magic, quit := false }

/-- `send` of the joined client: what it writes goes to the server, and what the server writes
is what its reads find. -/
def send (msgType : UInt8) (packet rsp : Buffer UInt8) (l : Peers σ) :
    Int32 × Buffer UInt8 × Buffer UInt8 × Peers σ :=
  let w := l.client.sendCmd e msgType packet
  let server := serve e j (w.2.2.port.sent.drop l.client.port.sent.length) l.server
  let back := server.srvr.port.sent.drop l.server.srvr.port.sent.length
  let client := { l.client with port := Link.arrive l.client.port (j.down back) }
  let r := client.send e msgType packet rsp
  (r.1, r.2.1, r.2.2.1, { client := r.2.2.2, server })

/-- The joined client as its stubs use it. -/
def objSrvr : ObjSrvr (Peers σ) where
  nextMsgId l := (l.client.nextMsgId.1, { l with client := l.client.nextMsgId.2 })
  send msgType packet rsp l := send e j msgType packet rsp l

/-- Between two calls: the loop of the server goes on, both pipes are empty, and no write
fails. -/
structure Idle (l : Peers σ) : Prop where
  client_rd : l.client.port.rd = []
  client_lossless : l.client.port.Lossless
  server_rd : l.server.srvr.port.rd = []
  server_lossless : l.server.srvr.port.Lossless
  running : l.server.running = true
  quit : l.server.srvr.quit = false

/-- Packet of a command with this payload as the client sends it. -/
def packet (payload : List UInt8) (h : payload.length < 2 ^ 32) : Packet where
  byteOrder := 0
  msgType := msgTypeCmd
  payload
  length_lt := h

/-- The answer to a command of the client, for what the object made of it. -/
def answer (id : UInt32) (r : Reply σ) : Answer where
  byteOrder := 0
  msgId := id
  reply := r.ret
  body := r.rsp.buf.written

end Peers

/-! ### The server's end -/

namespace Run

variable {σ : Type} {e : Endian}

/-- The server has served a command of which its object made this reply. -/
structure Replied (e : Endian) (id : UInt32) (r : Reply σ) (s s' : Run σ) : Prop where
  running : s'.running = true
  quit : s'.srvr.quit = false
  rd : s'.srvr.port.rd = []
  lossless : s'.srvr.port.Lossless
  sent : s'.srvr.port.sent = s.srvr.port.sent ++ (Peers.answer id r).bytes e
  objs : s'.objs = r.objs
  cmd : s'.srvr.cmdBuf.capacity = s.srvr.cmdBuf.capacity
  rsp : s'.srvr.rspBuf.capacity = s.srvr.rspBuf.capacity
  objReg : s'.srvr.objReg = s.srvr.objReg

/-- One pass over a command that the command buffer holds: the object is called at the
parameters behind the header, and its reply is written. -/
theorem pass_replied {id tgt op : UInt32} {args : List UInt8} {s : Run σ} {a : Entry}
    (hs : s.Active) (hstop : s.srvr.port.stops = []) (hl : s.srvr.port.Lossless)
    (ha : a.quit = false) (hlt : (cmdBytes e id tgt op ++ args).length < 2 ^ 32)
    (hp : s.srvr.port.pending = (Peers.packet _ hlt).bytes e)
    (hcmd : (cmdBytes e id tgt op ++ args).length ≤ s.srvr.cmdBuf.capacity) :
    ∃ b : Buffer UInt8, b.Valid ∧ b.pos = 12 ∧ b.unread = args ∧
      ∀ r, r = s.srvr.objReg.dispatch tgt op { buf := b, good := true }
          { buf := s.srvr.rspBuf.clear, good := true } s.objs →
        r.rsp.buf.Valid → r.rsp.buf.pos + 8 < 2 ^ 32 → Replied e id r s (s.pass e a) := by
  have hp' : s.srvr.port.pending = (Peers.packet _ hlt).bytes e ++ [] := by
    rw [hp, List.append_nil]
  have h12 : 12 ≤ (cmdBytes e id tgt op ++ args).length := by
    rw [List.length_append, length_cmdBytes]
    exact Nat.le_add_right _ _
  obtain ⟨b, t, hb, hpos, hu, hr, ht, hpass⟩ := pass_command e hs hstop ha hp' rfl h12 hcmd
  have hdec : CmdHdr.decode e (Peers.packet _ hlt).payload =
      { msgId := id, tgtObj := tgt, operation := op } := decode_cmdBytes e _ _ _ _
  rw [hdec] at hr
  refine ⟨b, hb, hpos, hu.trans (List.drop_left' (length_cmdBytes e id tgt op)), ?_⟩
  intro r hdisp hvalid hfit
  dsimp only at hr
  rw [← hdisp] at hr
  rw [hr] at ht hpass
  have hbuf := ht.rspBuf
  have hwr : t.srvr.port.Lossless := by
    rw [Port.Lossless, ht.port.wr]
    exact hl
  obtain ⟨hwrote, hlossless⟩ := respond_wrote e (s := t) r.ret hwr (by rwa [hbuf])
    (by rwa [hbuf])
  rcases respond_spec e t r.ret with ⟨-, -, hrun, hquit, hcmdBuf, hrd, -⟩
  have hcaprsp := capacity_respond e t r.ret
  have hobjReg : (t.respond e r.ret).srvr.objReg = t.srvr.objReg := rfl
  have hobjs : (t.respond e r.ret).objs = t.objs := rfl
  rw [← hpass] at hwrote hlossless hrun hquit hcmdBuf hrd hcaprsp hobjReg hobjs
  constructor
  · rw [hrun, ht.running, hs.running]
  · rw [hquit, ht.quit]
  · -- the whole packet is consumed, so that nothing is left at the port
    rw [hrd]
    apply Port.rd_of_consumed _ hstop
    rw [hp]
    exact ht.port.toConsumed
  · exact hlossless
  · have hid : t.cmdHdr.msgId = id := by
      rw [ht.cmdHdr]
      exact congrArg CmdHdr.msgId (decode_cmdBytes e id tgt op args)
    have hpkt : t.pktHdr.bytes = PktHdr.encode e 0 msgTypeCmd
        (UInt32.ofNat (Peers.packet _ hlt).payload.length) := ht.pktHdr
    rw [hwrote.sent, ht.port.sent, PktHdr.store_rsp hpkt, hid, hbuf, Answer.bytes]
    simp only [Peers.answer, hvalid.length_written]
  · rw [hobjs, ht.objs]
  · rw [hcmdBuf, ht.cmd]
  · rw [hcaprsp, hbuf, hdisp, DistObjRegistry.capacity_rsp_dispatch]
    rfl
  · rw [hobjReg, ht.objReg]

end Run

/-! ### The client's end -/

namespace Peers

variable {σ : Type} {e : Endian} {j : Journey}

/-- An answer that has arrived alone is read to its end. -/
theorem recvRsp_answer {ω : Type} {d : DistObjSrvr ω} {a : Answer} {rsp : Buffer UInt8}
    (hp : d.port.pending = a.bytes e) (hs : d.port.stops = []) (hpos : rsp.pos = 0)
    (hfit : a.body.length ≤ rsp.capacity) (hlt : a.body.length + 8 < 2 ^ 32) :
    ∃ b p, d.recvRsp e rsp = (a.reply, b, { d with port := p }) ∧
      (a.body ≠ [] → b.Valid ∧ b.pos = 0 ∧ b.unread = a.body) ∧
      p.rd = [] ∧ p.wr = d.port.wr := by
  obtain ⟨b, p, hrecv, -, hb, htook⟩ := DistObjSrvr.recvRsp_spec (e := e) hp (List.prefix_refl _)
    (PktHdr.length_encode ..)
    (by rw [List.length_append, NativeRep.length_bytes, NativeRep.length_bytes]; rfl)
    (NativeRep.value_bytes e _) hpos hfit hlt
  have hpast := (htook rfl).past
  rw [Nat.min_self] at hpast
  have hreply : NativeRep.value e ((NativeRep.bytes e a.msgId ++
      NativeRep.bytes e a.reply).drop 4) = a.reply := by
    have h4 : (NativeRep.bytes e a.msgId).length = 4 := NativeRep.length_bytes e a.msgId
    rw [List.drop_left' h4, NativeRep.value_bytes]
  rw [hreply] at hrecv
  exact ⟨b, p, hrecv, hb, Port.rd_of_consumed hpast.toConsumed hs, hpast.wr⟩

/-- What a send over an idle link comes to: the server has dispatched the command, the caller
gets the result and the bytes that the object put, and the client has read all of the answer. -/
structure Exchanged (e : Endian) (id : UInt32) (r : Reply σ) (l : Peers σ)
    (x : Int32 × Buffer UInt8 × Buffer UInt8 × Peers σ) : Prop where
  ret : x.1 = r.ret
  body : r.rsp.buf.written ≠ [] →
    x.2.2.1.Valid ∧ x.2.2.1.pos = 0 ∧ x.2.2.1.unread = r.rsp.buf.written
  replied : Run.Replied e id r l.server x.2.2.2.server
  rd : x.2.2.2.client.port.rd = []
  lossless : x.2.2.2.client.port.Lossless

/-- A command sent over an idle link, with room for it at the server and for the reply at the
client. -/
theorem send_exchanged {id tgt op : UInt32} {args : List UInt8} {l : Peers σ} (hi : Idle l)
    {b rsp : Buffer UInt8} (hb : b.Valid) (hu : b.unread = cmdBytes e id tgt op ++ args)
    (hlt : b.unread.length < 2 ^ 31) (hcmd : b.unread.length ≤ l.server.srvr.cmdBuf.capacity)
    (hpos : rsp.pos = 0) (hrsp : rsp.capacity + 8 < 2 ^ 32) :
    ∃ c : Buffer UInt8, c.Valid ∧ c.pos = 12 ∧ c.unread = args ∧
      ∀ r, r = l.server.srvr.objReg.dispatch tgt op { buf := c, good := true }
          { buf := l.server.srvr.rspBuf.clear, good := true } l.server.objs →
        r.rsp.buf.Valid → r.rsp.buf.pos ≤ rsp.capacity →
          Exchanged e id r l (send e j msgTypeCmd b rsp l) := by
  have hlen : (cmdBytes e id tgt op ++ args).length < 2 ^ 32 := by
    rw [← hu]
    omega
  have hcmd' : (cmdBytes e id tgt op ++ args).length ≤ l.server.srvr.cmdBuf.capacity := by
    rwa [← hu]
  -- what the client writes is the packet of the command
  have hpkt : PktHdr.encode e 0 msgTypeCmd (UInt32.ofNat b.unread.length) ++ b.unread =
      (packet _ hlen).bytes e := by
    rw [hu]
    rfl
  obtain ⟨b1, p1, hsend, -, hwrote⟩ :=
    DistObjSrvr.sendCmd_spec (e := e) hi.client_lossless hb hlt msgTypeCmd
  rw [hpkt] at hwrote
  have hsent : p1.sent.drop l.client.port.sent.length = (packet _ hlen).bytes e := by
    rw [hwrote.sent, List.drop_left]
  -- the server has it and nothing else
  rcases Link.arrive_spec hi.server_rd (j.up ((packet _ hlen).bytes e)) with ⟨hpend, hstop⟩
  rw [j.flatten_up] at hpend
  obtain ⟨c, hc, hcpos, hcu, hrep⟩ := Run.pass_replied
    (s := { l.server with srvr := { l.server.srvr with
      port := Link.arrive l.server.srvr.port (j.up ((packet _ hlen).bytes e)) } })
    (a := { magic := j.magic, quit := false })
    ⟨hi.running, hi.quit, Port.ended_of_stops hstop⟩ hstop hi.server_lossless rfl hlen hpend
    hcmd'
  refine ⟨c, hc, hcpos, hcu, ?_⟩
  intro r hr hvalid hfit
  have hans : Run.Replied e id r l.server (serve e j ((packet _ hlen).bytes e) l.server) := by
    obtain ⟨h1, h2, h3, h4, h5, h6, h7, h8, h9⟩ := hrep r hr hvalid (by omega)
    exact ⟨h1, h2, h3, h4, h5, h6, h7, h8, h9⟩
  generalize hsv : serve e j ((packet _ hlen).bytes e) l.server = server at hans
  have hback : server.srvr.port.sent.drop l.server.srvr.port.sent.length =
      (answer id r).bytes e := by
    rw [hans.sent, List.drop_left]
  -- what the client reads is the answer to it
  rcases Link.arrive_spec hi.client_rd (j.down ((answer id r).bytes e)) with ⟨hpend, hstop⟩
  rw [j.flatten_down] at hpend
  generalize hd : ({ l.client with
    port := Link.arrive l.client.port (j.down ((answer id r).bytes e)) } : DistObjSrvr _) = d
  have hdp : d.port = Link.arrive l.client.port (j.down ((answer id r).bytes e)) := by rw [← hd]
  obtain ⟨b2, p2, hsend2, hl2, hw2⟩ := DistObjSrvr.sendCmd_spec (e := e) (d := d)
    (by rw [hdp]; exact hi.client_lossless) hb hlt msgTypeCmd
  have hp2 : p2.pending = (answer id r).bytes e := by
    rw [← hpend, ← hdp]
    exact congrArg Port.lead hw2.rd
  have hs2 : p2.stops = [] := by
    rw [← hstop, ← hdp]
    exact congrArg Port.tail hw2.rd
  have hbody : (answer id r).body.length = r.rsp.buf.pos := hvalid.length_written
  obtain ⟨b3, p3, hrecv, hb3, hrd, hwr⟩ := recvRsp_answer (e := e)
    (d := { d with port := p2 }) hp2 hs2 hpos (by rw [hbody]; exact hfit) (by omega)
  have hneg : (0 : Int32) < 0 ↔ False := by decide
  have hall : send e j msgTypeCmd b rsp l =
      (r.ret, b2, b3, { client := { d with port := p3 }, server }) := by
    simp only [send, hsend, hsent, hsv, hback, hd, DistObjSrvr.send, hsend2, hrecv, hneg,
      if_false]
    rfl
  rw [hall]
  refine ⟨rfl, hb3, hans, hrd, ?_⟩
  change p3.Lossless
  rw [Port.Lossless, hwr]
  exact hl2

end Peers
end CtrlrFx.DistObj
