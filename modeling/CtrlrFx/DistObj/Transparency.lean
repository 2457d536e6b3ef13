import CtrlrFx.DistObj.Client
import CtrlrFx.DistObj.Framing
import CtrlrFx.DistObj.Remote

/-!
# Transparency of remote calls

One call: the client's packet is what the server decodes, the object is called with what the
stub was given, and the client decodes what the object returned. Both ends are then where they
were before the call, so that any number of calls goes the same way.
-/

namespace CtrlrFx.DistObj
open Base Data Io

/-! ### The object's answer -/

/-- Body of the response that carries a result. -/
def Result.body (e : Endian) : Result → List UInt8
  | int n => NativeRep.bytes e n
  | bool b => NativeRep.bytes e b
  | done => []

section Skeletons

variable {τ : Type} {e : Endian} {junk : Int32} {param q rsp : BufCodec} {s : τ} {k : Nat}

theorem DigInSkel.widthCmd_of_put {impl : DigIn τ} (h : rsp.put e (impl.width s).1 = (k, q)) :
    widthCmd e impl param rsp s =
      { ret := 0, param, rsp := q, objs := (impl.width s).2 } := by
  rw [widthCmd, Call.put_toUInt32, h]

theorem DigInSkel.valueCmd_of_get {impl : DigIn τ} {bit : Int32}
    (h : param.get e junk = (k, bit, q)) :
    valueCmd e junk impl param rsp s =
      { ret := 0, param := q, rsp := (rsp.put e (impl.value bit s).1).2,
        objs := (impl.value bit s).2 } := by
  rw [valueCmd, h, Call.putBool_eq]

theorem DigOutSkel.widthCmd_of_put {impl : DigOut τ} (h : rsp.put e (impl.width s).1 = (k, q)) :
    widthCmd e impl param rsp s =
      { ret := 0, param, rsp := q, objs := (impl.width s).2 } := by
  rw [widthCmd, Call.put_toUInt32, h]

theorem DigOutSkel.setCmd_of_get {impl : DigOut τ} {bit : Int32} {b : Bool} {k' : Nat}
    {q' : BufCodec} (h : param.get e junk = (k, bit, q)) (h' : q.get e true = (k', b, q')) :
    setCmd e junk impl param rsp s =
      { ret := 0, param := q', rsp, objs := impl.set bit b s } := by
  rw [setCmd, h, h']

theorem DigOutSkel.clearCmd_of_get {impl : DigOut τ} {bit : Int32}
    (h : param.get e junk = (k, bit, q)) :
    clearCmd e junk impl param rsp s =
      { ret := 0, param := q, rsp, objs := impl.clear bit s } := by
  rw [clearCmd, h]

theorem DigOutSkel.toggleCmd_of_get {impl : DigOut τ} {bit : Int32}
    (h : param.get e junk = (k, bit, q)) :
    toggleCmd e junk impl param rsp s =
      { ret := 0, param := q, rsp, objs := impl.toggle bit s } := by
  rw [toggleCmd, h]

end Skeletons

/-- What an object is to answer to a call: the call is made on the port behind it, and the
response holds what that returned. -/
structure Answers {τ : Type} (e : Endian) (impl : Impl τ) (c : Call) (w : World τ)
    (r : Reply (World τ)) : Prop where
  ret : r.ret = 0
  objs : r.objs = w.record c (impl.apply c w.state).2
  valid : r.rsp.buf.Valid
  written : r.rsp.buf.written = (impl.apply c w.state).1.body e

/-- The skeleton of a call's object answers it, if its parameters come next and the response
fits. -/
theorem answers_obj {τ : Type} {e : Endian} {impl : Impl τ} {c : Call} (junk : Int32)
    (w : World τ) {b rb : Buffer UInt8} (hb : b.Valid) (hp : b.pos = 12)
    (hu : b.unread = c.args e) (hr : c.rspSize ≤ rb.capacity) :
    Answers e impl c w ((c.obj e junk impl).invoke c.op { buf := b, good := true }
      { buf := rb.clear, good := true } w) := by
  have hs : NativeRep.size Int32 = 4 := rfl
  have hz : rb.clear.pos = 0 := rfl
  have hlim : rb.clear.lim = rb.capacity := rfl
  have hv := Buffer.valid_clear rb
  have hw := Buffer.written_clear rb
  -- both the first parameter and a width stand at a multiple of four
  have hbit (bit : Int32) (rest : List UInt8) (hu : b.unread = NativeRep.bytes e bit ++ rest) :=
    BufCodec.get_append Call.width_int32 hb (by rw [hp, hs]; decide) hu junk
  have hint (n : Int32) (h4 : 4 ≤ rb.capacity) := BufCodec.put_append (e := e) Call.width_int32
    hv (by rw [hz]; exact Nat.dvd_zero _) (by rw [hz, hlim, hs]; omega) n
  cases c with
  | inWidth inst =>
    rcases hint ((impl.recIn inst).width w).1 hr with ⟨rp, h, hv', -, -, hw'⟩
    have hi : ((Call.inWidth inst).obj e junk impl).invoke (Call.inWidth inst).op =
        DigInSkel.widthCmd e (impl.recIn inst) := rfl
    rw [hi, DigInSkel.widthCmd_of_put h]
    exact ⟨rfl, rfl, hv', by rw [hw', hw]; rfl⟩
  | inValue inst bit =>
    rcases hbit bit [] (by rw [hu, Call.args, List.append_nil]) with ⟨b', h, -⟩
    obtain ⟨rp, h1, hv', -, -, hw'⟩ := BufCodec.put_append (e := e) Call.width_bool hv
      (Nat.one_dvd _) (by rw [hz, hlim, Nat.zero_add]; exact hr)
      ((impl.recIn inst).value bit w).1
    have hi : ((Call.inValue inst bit).obj e junk impl).invoke (Call.inValue inst bit).op =
        DigInSkel.valueCmd e junk (impl.recIn inst) := rfl
    rw [hi, DigInSkel.valueCmd_of_get h, h1]
    exact ⟨rfl, rfl, hv', by rw [hw', hw]; rfl⟩
  | outWidth inst =>
    rcases hint ((impl.recOut inst).width w).1 hr with ⟨rp, h, hv', -, -, hw'⟩
    have hi : ((Call.outWidth inst).obj e junk impl).invoke (Call.outWidth inst).op =
        DigOutSkel.widthCmd e (impl.recOut inst) := rfl
    rw [hi, DigOutSkel.widthCmd_of_put h]
    exact ⟨rfl, rfl, hv', by rw [hw', hw]; rfl⟩
  | outSet inst bit v =>
    rcases hbit bit (NativeRep.bytes e v) hu with ⟨b', h, hb', -, hu'⟩
    obtain ⟨b'', h', -⟩ := BufCodec.get_append Call.width_bool hb' (Nat.one_dvd _)
      (hu'.trans (List.append_nil _).symm) true
    have hi : ((Call.outSet inst bit v).obj e junk impl).invoke (Call.outSet inst bit v).op =
        DigOutSkel.setCmd e junk (impl.recOut inst) := rfl
    rw [hi, DigOutSkel.setCmd_of_get h h']
    exact ⟨rfl, rfl, hv, hw⟩
  | outClear inst bit =>
    rcases hbit bit [] (by rw [hu, Call.args, List.append_nil]) with ⟨b', h, -⟩
    have hi : ((Call.outClear inst bit).obj e junk impl).invoke (Call.outClear inst bit).op =
        DigOutSkel.clearCmd e junk (impl.recOut inst) := rfl
    rw [hi, DigOutSkel.clearCmd_of_get h]
    exact ⟨rfl, rfl, hv, hw⟩
  | outToggle inst bit =>
    rcases hbit bit [] (by rw [hu, Call.args, List.append_nil]) with ⟨b', h, -⟩
    have hi : ((Call.outToggle inst bit).obj e junk impl).invoke (Call.outToggle inst bit).op =
        DigOutSkel.toggleCmd e junk (impl.recOut inst) := rfl
    rw [hi, DigOutSkel.toggleCmd_of_get h]
    exact ⟨rfl, rfl, hv, hw⟩

/-! ### The server's end -/

theorem Call.cmdSize_bounds (c : Call) : 12 ≤ c.cmdSize ∧ c.cmdSize ≤ 17 := by
  cases c <;> simp only [cmdSize] <;> decide

/-- Packet of a call as the client sends it. -/
def Call.packet (e : Endian) (id : UInt32) (c : Call) : Packet where
  byteOrder := 0
  msgType := msgTypeCmd
  payload := cmdBytes e id c.key c.op ++ c.args e
  length_lt := by
    rw [List.length_append, length_cmdBytes, Call.length_args]
    exact Nat.lt_of_le_of_lt c.cmdSize_bounds.2 (by decide)

/-- Response that carries a result. -/
def rspBytes (e : Endian) (id : UInt32) (r : Result) : List UInt8 :=
  PktHdr.encode e 0 msgTypeRsp (UInt32.ofNat (8 + (r.body e).length)) ++
    (NativeRep.bytes e id ++ NativeRep.bytes e (0 : Int32)) ++ r.body e

theorem length_packet (e : Endian) (id : UInt32) (c : Call) :
    (c.packet e id).payload.length = c.cmdSize := by
  rw [Call.packet, List.length_append, length_cmdBytes, Call.length_args]

theorem length_body_le (e : Endian) (r : Result) : (r.body e).length ≤ 4 := by
  cases r with
  | int n => exact Nat.le_of_eq (NativeRep.length_bytes e n)
  | bool b => exact Nat.le_trans (Nat.le_of_eq (NativeRep.length_bytes e b)) (by decide)
  | done => exact Nat.zero_le _

namespace Run

variable {τ : Type}

/-- The server has served a call: it was made on the port, the response was written, and the
server is at the end of the packet. -/
structure Answered (e : Endian) (impl : Impl τ) (id : UInt32) (c : Call) (s s' : Run (World τ)) :
    Prop where
  running : s'.running = true
  quit : s'.srvr.quit = false
  rd : s'.srvr.port.rd = []
  lossless : s'.srvr.port.Lossless
  sent : s'.srvr.port.sent = s.srvr.port.sent ++ rspBytes e id (impl.apply c s.objs.state).1
  objs : s'.objs = s.objs.record c (impl.apply c s.objs.state).2
  cmd : s'.srvr.cmdBuf.capacity = s.srvr.cmdBuf.capacity
  rsp : s'.srvr.rspBuf.capacity = s.srvr.rspBuf.capacity
  objReg : s'.srvr.objReg = s.srvr.objReg

/-- One pass over the packet of a call whose object is registered and for which there is
room. -/
theorem pass_answered {e : Endian} {junk : Int32} {impl : Impl τ} {id : UInt32} {c : Call}
    {s : Run (World τ)} {a : Entry} (hs : s.Active) (hstop : s.srvr.port.stops = [])
    (hl : s.srvr.port.Lossless) (ha : a.quit = false)
    (hp : s.srvr.port.pending = (c.packet e id).bytes e)
    (hcmd : c.cmdSize ≤ s.srvr.cmdBuf.capacity) (hrsp : c.rspSize ≤ s.srvr.rspBuf.capacity)
    (hobj : s.srvr.objReg.getObj c.key = some (c.obj e junk impl)) :
    Answered e impl id c s (s.pass e a) := by
  have hlen := length_packet e id c
  have hp' : s.srvr.port.pending = (c.packet e id).bytes e ++ [] := by rw [hp, List.append_nil]
  obtain ⟨b, t, hb, hpos, hu, hr, ht, hpass⟩ := pass_command e hs hstop ha hp' rfl
    (by rw [hlen]; exact c.cmdSize_bounds.1) (by rw [hlen]; exact hcmd)
  obtain ⟨r, hreply⟩ : ∃ r, (s.atPacket a).reply e = r := ⟨_, rfl⟩
  rw [hreply] at hr ht hpass
  have hans : Answers e impl c s.objs r := by
    have hdec : CmdHdr.decode e (c.packet e id).payload =
        { msgId := id, tgtObj := c.key, operation := c.op } := decode_cmdBytes e _ _ _ _
    rw [hr, hdec, DistObjRegistry.dispatch, hobj]
    refine answers_obj junk _ hb hpos ?_ hrsp
    rw [hu]
    exact List.drop_left' (length_cmdBytes e id c.key c.op)
  have hbuf := ht.rspBuf
  have hwr : t.srvr.port.Lossless := by
    rw [Port.Lossless, ht.port.wr]
    exact hl
  have hlenb : t.srvr.rspBuf.pos = ((impl.apply c s.objs.state).1.body e).length := by
    rw [hbuf, ← hans.valid.length_written, hans.written]
  obtain ⟨hwrote, hlossless⟩ := respond_wrote e (s := t) r.ret hwr (by rw [hbuf]; exact hans.valid)
    (by have := length_body_le e (impl.apply c s.objs.state).1; omega)
  rcases respond_spec e t r.ret with ⟨-, -, hrun, hquit, hcmdBuf, hrd, -⟩
  have hcaprsp := capacity_respond e t r.ret
  have hobjReg : (t.respond e r.ret).srvr.objReg = t.srvr.objReg := rfl
  have hobjs : (t.respond e r.ret).objs = t.objs := rfl
  rw [← hpass] at hwrote hlossless hrun hquit hcmdBuf hrd hcaprsp hobjReg hobjs
  constructor
  · rw [hrun, ht.running, hs.running]
  · rw [hquit, ht.quit]
  · -- the whole packet is consumed, so that nothing is left at the port
    rw [hrd]
    apply Port.rd_of_consumed _ hstop
    rw [hp]
    exact ht.port.toConsumed
  · exact hlossless
  · have hid : t.cmdHdr.msgId = id := by
      rw [ht.cmdHdr]
      exact congrArg CmdHdr.msgId (decode_cmdBytes e id c.key c.op (c.args e))
    have hpkt : t.pktHdr.bytes = PktHdr.encode e 0 msgTypeCmd
        (UInt32.ofNat (c.packet e id).payload.length) := ht.pktHdr
    rw [hwrote.sent, ht.port.sent, PktHdr.store_rsp hpkt, hlenb, hid, hbuf, hans.written, hans.ret,
      rspBytes]
  · rw [hobjs, ht.objs, hans.objs]
  · rw [hcmdBuf, ht.cmd]
  · rw [hcaprsp, hbuf, hr, DistObjRegistry.capacity_rsp_dispatch]
    rfl
  · rw [hobjReg, ht.objReg]

end Run

/-! ### The client's end -/

/-- The stub returns what the response carries. -/
theorem Call.decode_of_body {e : Endian} {c : Call} {τ : Type} {impl : Impl τ} {s : τ}
    {b : Buffer UInt8} (hb : (impl.apply c s).1.body e ≠ [] →
      b.Valid ∧ b.pos = 0 ∧ b.unread = (impl.apply c s).1.body e) :
    c.decode e 0 b = (impl.apply c s).1 := by
  have hint (n : Int32) (hb : b.Valid ∧ b.pos = 0 ∧ b.unread = NativeRep.bytes e n) :
      (BufCodec.get e { buf := b, good := true } (0 : Int32)).2.1 = n := by
    obtain ⟨b', h, -⟩ := BufCodec.get_append Call.width_int32 hb.1
      (by rw [hb.2.1]; exact Nat.dvd_zero _) (hb.2.2.trans (List.append_nil _).symm) (0 : Int32)
    rw [h]
  have hbool (v : Bool) (hb : b.Valid ∧ b.pos = 0 ∧ b.unread = NativeRep.bytes e v) :
      (BufCodec.get e { buf := b, good := true } false).2.1 = v := by
    obtain ⟨b', h, -⟩ := BufCodec.get_append Call.width_bool hb.1 (Nat.one_dvd _)
      (hb.2.2.trans (List.append_nil _).symm) false
    rw [h]
  have h0 : ¬(0 : Int32) ≠ 0 := not_not.mpr rfl
  have hne {α : Type} [NativeRep α] (hw : Buffer.Width (NativeRep.size α)) (v : α) :
      NativeRep.bytes e v ≠ [] := fun hc ↦ by
    have hl := NativeRep.length_bytes e v
    rw [hc, List.length_nil] at hl
    exact absurd hw.pos (by omega)
  cases c with
  | inWidth inst =>
    rw [Call.decode, if_neg h0, hint _ (hb (hne width_int32 _))]
    rfl
  | inValue inst bit =>
    rw [Call.decode, if_neg h0, hbool _ (hb (hne width_bool _))]
    rfl
  | outWidth inst =>
    rw [Call.decode, if_neg h0, hint _ (hb (hne width_int32 _))]
    rfl
  | outSet inst bit v => rfl
  | outClear inst bit => rfl
  | outToggle inst bit => rfl

/-- A stub sends the packet of its call. -/
theorem request_spec {ω : Type} (e : Endian) (srvr : ObjSrvr ω) (k : Stack) (c : Call) (w : ω) :
    ∃ b : Buffer UInt8, b.Valid ∧ b.unread = (c.packet e (srvr.nextMsgId w).1).payload ∧
      request e srvr c.key k c.op (c.putArgs e) w =
        ((srvr.send msgTypeCmd b (.fixed k.rsp) (srvr.nextMsgId w).2).1,
          (srvr.send msgTypeCmd b (.fixed k.rsp) (srvr.nextMsgId w).2).2.2) := by
  rcases putCmdHdr_spec e srvr c.key k c.op w with ⟨b, h, hhdr⟩
  rcases Call.putArgs_spec hhdr c with ⟨b', h', hv, hw⟩
  refine ⟨b'.flip, hv.flip, hw, ?_⟩
  simp only [request, h, h']

namespace Link

variable {τ : Type} {e : Endian} {j : Journey}

/-- At a port that has been read to its end just these bytes arrive. -/
theorem arrive_spec {p : Port} (hp : p.rd = []) (chunks : List (List UInt8)) :
    (arrive p chunks).pending = chunks.flatten ∧ (arrive p chunks).stops = [] := by
  have hrd : (arrive p chunks).rd = (Port.deliver chunks).rd := by
    rw [arrive, hp]
    rfl
  exact ⟨(congrArg Port.lead hrd).trans (Port.pending_deliver chunks),
    (congrArg Port.tail hrd).trans (Port.stops_deliver chunks)⟩

/-- What is left after a call: it was made on the port, its result is known to the client, and
the link is idle again. -/
structure Called (impl : Impl τ) (c : Call) (l : Link τ) (r : Result × Link τ) : Prop where
  result : r.1 = (impl.apply c l.server.objs.state).1
  objs : r.2.server.objs = l.server.objs.record c (impl.apply c l.server.objs.state).2
  idle : Idle r.2
  cmd : r.2.server.srvr.cmdBuf.capacity = l.server.srvr.cmdBuf.capacity
  rsp : r.2.server.srvr.rspBuf.capacity = l.server.srvr.rspBuf.capacity
  objReg : r.2.server.srvr.objReg = l.server.srvr.objReg

theorem serve_answered {junk : Int32} {impl : Impl τ} {id : UInt32} {c : Call} {l : Link τ}
    (hi : Idle l) (hs : Serves e junk impl l c) :
    Run.Answered e impl id c l.server (serve e j ((c.packet e id).bytes e) l.server) := by
  rcases arrive_spec hi.server_rd (j.up ((c.packet e id).bytes e)) with ⟨hpend, hstop⟩
  rw [j.flatten_up] at hpend
  obtain ⟨h1, h2, h3, h4, h5, h6, h7, h8, h9⟩ := Run.pass_answered
    (s := { l.server with srvr := { l.server.srvr with
      port := arrive l.server.srvr.port (j.up ((c.packet e id).bytes e)) } })
    (a := { magic := j.magic, quit := false })
    ⟨hi.running, hi.quit, Port.ended_of_stops hstop⟩ hstop hi.server_lossless rfl hpend
    hs.cmd hs.rsp hs.obj
  exact ⟨h1, h2, h3, h4, h5, h6, h7, h8, h9⟩

/-- A response that has arrived alone is read to its end. -/
theorem recvRsp_answer {σ : Type} {d : DistObjSrvr σ} {id : UInt32} {res : Result} (k : Stack)
    (hp : d.port.pending = rspBytes e id res) (hs : d.port.stops = []) :
    ∃ b p, d.recvRsp e (.fixed k.rsp) = (0, b, { d with port := p }) ∧
      (res.body e ≠ [] → b.Valid ∧ b.pos = 0 ∧ b.unread = res.body e) ∧
      p.rd = [] ∧ p.wr = d.port.wr := by
  have hbody := length_body_le e res
  have hfit : (res.body e).length ≤ (Buffer.fixed k.rsp).capacity := by
    change _ ≤ k.rsp.length
    rw [k.length_rsp]
    omega
  obtain ⟨b, p, hrecv, -, hb, htook⟩ := DistObjSrvr.recvRsp_spec (e := e) hp (List.prefix_refl _)
    (by rw [PktHdr.encode, List.length_append, NativeRep.length_bytes]; rfl)
    (by rw [List.length_append, NativeRep.length_bytes, NativeRep.length_bytes]; rfl)
    (NativeRep.value_bytes e _) rfl hfit (by omega)
  have hpast := (htook rfl).past
  rw [Nat.min_self] at hpast
  have hzero : NativeRep.value e ((NativeRep.bytes e id ++
      NativeRep.bytes e (0 : Int32)).drop 4) = (0 : Int32) := by
    have h4 : (NativeRep.bytes e id).length = 4 := NativeRep.length_bytes e id
    rw [List.drop_left' h4, NativeRep.value_bytes]
  rw [hzero] at hrecv
  exact ⟨b, p, hrecv, hb, Port.rd_of_consumed hpast.toConsumed hs, hpast.wr⟩

/-- What a send over an idle link comes to: the server has answered the call, the answer is in
the response buffer, and the client has read all of it. -/
structure Exchanged (e : Endian) (impl : Impl τ) (id : UInt32) (c : Call) (l : Link τ)
    (r : Int32 × Buffer UInt8 × Buffer UInt8 × Link τ) : Prop where
  ret : r.1 = 0
  body : (impl.apply c l.server.objs.state).1.body e ≠ [] → r.2.2.1.Valid ∧ r.2.2.1.pos = 0 ∧
    r.2.2.1.unread = (impl.apply c l.server.objs.state).1.body e
  answered : Run.Answered e impl id c l.server r.2.2.2.server
  rd : r.2.2.2.client.port.rd = []
  lossless : r.2.2.2.client.port.Lossless

/-- A command sent over an idle link. -/
theorem send_exchanged {junk : Int32} {impl : Impl τ} {id : UInt32} {c : Call} {l : Link τ}
    (hi : Idle l) (hs : Serves e junk impl l c) {b : Buffer UInt8} (hb : b.Valid)
    (hu : b.unread = (c.packet e id).payload) :
    Exchanged e impl id c l (send e j msgTypeCmd b (.fixed j.stack.rsp) l) := by
  have hlt : b.unread.length < 2 ^ 31 := by
    rw [hu, length_packet]
    exact Nat.lt_of_le_of_lt c.cmdSize_bounds.2 (by decide)
  -- what the client writes is the packet of the call
  have hpkt : PktHdr.encode e 0 msgTypeCmd (UInt32.ofNat b.unread.length) ++ b.unread =
      (c.packet e id).bytes e := by
    rw [hu]
    rfl
  obtain ⟨b1, p1, hsend, -, hwrote⟩ :=
    DistObjSrvr.sendCmd_spec (e := e) hi.client_lossless hb hlt msgTypeCmd
  rw [hpkt] at hwrote
  have hsent : p1.sent.drop l.client.port.sent.length = (c.packet e id).bytes e := by
    rw [hwrote.sent, List.drop_left]
  -- what the server writes is the answer
  have hans : Run.Answered e impl id c l.server (serve e j ((c.packet e id).bytes e) l.server) :=
    serve_answered hi hs
  generalize hsv : serve e j ((c.packet e id).bytes e) l.server = server at hans
  have hback : server.srvr.port.sent.drop l.server.srvr.port.sent.length =
      rspBytes e id (impl.apply c l.server.objs.state).1 := by
    rw [hans.sent, List.drop_left]
  generalize hres : (impl.apply c l.server.objs.state).1 = res at hback
  -- what the client reads is that answer
  rcases arrive_spec hi.client_rd (j.down (rspBytes e id res)) with ⟨hpend, hstop⟩
  rw [j.flatten_down] at hpend
  generalize hd : ({ l.client with
    port := arrive l.client.port (j.down (rspBytes e id res)) } : DistObjSrvr _) = d
  have hdp : d.port = arrive l.client.port (j.down (rspBytes e id res)) := by rw [← hd]
  obtain ⟨b2, p2, hsend2, hl2, hw2⟩ := DistObjSrvr.sendCmd_spec (e := e) (d := d)
    (by rw [hdp]; exact hi.client_lossless) hb hlt msgTypeCmd
  have hp2 : p2.pending = rspBytes e id res := by
    rw [← hpend, ← hdp]
    exact congrArg Port.lead hw2.rd
  have hs2 : p2.stops = [] := by
    rw [← hstop, ← hdp]
    exact congrArg Port.tail hw2.rd
  obtain ⟨b3, p3, hrecv, hb3, hrd, hwr⟩ :=
    recvRsp_answer (e := e) (d := { d with port := p2 }) j.stack hp2 hs2
  have hall : send e j msgTypeCmd b (.fixed j.stack.rsp) l =
      (0, b2, b3, { client := { d with port := p3 }, server }) := by
    have hneg : ¬(0 : Int32) < 0 := by decide
    simp only [send, hsend, hsent, hsv, hback, hd, DistObjSrvr.send, hsend2, hrecv, if_neg hneg]
  rw [hall]
  refine ⟨rfl, ?_, hans, hrd, ?_⟩
  · rw [hres]
    exact hb3
  · change p3.Lossless
    rw [Port.Lossless, hwr]
    exact hl2

/-- A call on a stub of an idle link. -/
theorem perform_called {junk : Int32} {impl : Impl τ} {c : Call} {l : Link τ} (hi : Idle l)
    (hs : Serves e junk impl l c) :
    Called impl c l (c.perform e (objSrvr e j) j.stack l) := by
  rw [Call.perform_eq]
  rcases request_spec e (objSrvr e j) j.stack c l with ⟨b, hb, hu, hreq⟩
  -- the next message id changes neither the server nor the ports
  have hi' : Idle ((objSrvr e j).nextMsgId l).2 :=
    ⟨hi.client_rd, hi.client_lossless, hi.server_rd, hi.server_lossless, hi.running, hi.quit⟩
  have hs' : Serves e junk impl ((objSrvr e j).nextMsgId l).2 c := ⟨hs.cmd, hs.rsp, hs.obj⟩
  have hx := send_exchanged (j := j) hi' hs' hb hu
  have hret : ((objSrvr e j).send msgTypeCmd b (.fixed j.stack.rsp)
      ((objSrvr e j).nextMsgId l).2).1 = 0 := hx.ret
  rw [hreq, hret]
  have hans := hx.answered
  exact ⟨Call.decode_of_body hx.body, hans.objs,
    ⟨hx.rd, hx.lossless, hans.rd, hans.lossless, hans.running, hans.quit⟩, hans.cmd, hans.rsp,
    hans.objReg⟩

/-- Any number of calls on stubs, however the bytes of each fall into chunks: the ports get the
calls that were made, every stub returns what its port returned, and the link is idle again. -/
theorem callAll_transparent (e : Endian) (junk : Int32) (impl : Impl τ) (l : Link τ)
    (cs : List (Call × Journey)) (hi : Idle l) (hs : ∀ c ∈ cs, Serves e junk impl l c.1) :
    (callAll e l cs).1 = (impl.applyAll (cs.map Prod.fst) l.server.objs.state).1 ∧
      (callAll e l cs).2.server.objs =
        { state := (impl.applyAll (cs.map Prod.fst) l.server.objs.state).2
          calls := l.server.objs.calls ++ cs.map Prod.fst } ∧
      Idle (callAll e l cs).2 := by
  induction cs generalizing l with
  | nil => exact ⟨rfl, by rw [List.map_nil, List.append_nil]; rfl, hi⟩
  | cons cj cs ih =>
    rcases cj with ⟨c, j⟩
    have hc : Called impl c l (c.perform e (objSrvr e j) j.stack l) :=
      perform_called hi (hs _ (List.mem_cons_self ..))
    rw [callAll]
    generalize c.perform e (objSrvr e j) j.stack l = r at hc
    rcases hc with ⟨hres, hobjs, hidle, hcmd, hrsp, hreg⟩
    obtain ⟨h1, h2, h3⟩ := ih r.2 hidle fun c' hc' ↦ by
      rcases hs c' (List.mem_cons_of_mem _ hc') with ⟨hc, hr, ho⟩
      exact ⟨by rwa [hcmd], by rwa [hrsp], by rwa [hreg]⟩
    rw [hobjs] at h1 h2
    refine ⟨?_, ?_, h3⟩
    · dsimp only
      rw [hres, h1]
      rfl
    · dsimp only
      rw [h2, World.record, List.append_assoc]
      rfl

/-- Bytes that arrive one by one. -/
def oneByOne : Journey where
  up bs := bs.map fun b ↦ [b]
  down bs := bs.map fun b ↦ [b]
  flatten_up bs := by
    induction bs with
    | nil => rfl
    | cons b bs ih => exact congrArg (b :: ·) ih
  flatten_down bs := by
    induction bs with
    | nil => rfl
    | cons b bs ih => exact congrArg (b :: ·) ih
  magic := default
  stack :=
    { cmd := List.replicate 256 0
      rsp := List.replicate 256 0
      length_cmd := List.length_replicate
      length_rsp := List.length_replicate }

/-- One line that can be driven and read back. -/
def line : Impl Bool where
  ins _ := { width := fun s ↦ (1, s), value := fun _ s ↦ (s, s) }
  outs _ :=
    { width := fun s ↦ (1, s)
      set := fun _ b _ ↦ b
      clear := fun _ _ ↦ false
      toggle := fun _ s ↦ !s }

/-- A server for the line, with buffers of `n` bytes, and a client. -/
def lineLink (n : Nat) : Link Bool where
  client := .create (.deliver []) [] [] []
  server :=
    let d : DistObjSrvr (World Bool) := .create (.deliver [])
      (List.replicate 3 { key := 0, obj := none }) (List.replicate n 0) (List.replicate n 0)
    let d := (d.registerObj (tgtObj classDigIn 0) (DigInSkel.obj .little 0 (line.recIn 0))).2
    let d := (d.registerObj (tgtObj classDigOut 0) (DigOutSkel.obj .little 0 (line.recOut 0))).2
    .start d default default { state := false, calls := [] }

/-- The line is set, toggled and read, with the bytes one by one. -/
theorem callAll_transparent_three :
    (callAll .little (lineLink 32) [(.outSet 0 5 true, oneByOne), (.outToggle 0 5, oneByOne),
      (.inValue 0 5, oneByOne)]).1 = [.done, .done, .bool false] ∧
    (callAll .little (lineLink 32) [(.outSet 0 5 true, oneByOne), (.outToggle 0 5, oneByOne),
      (.inValue 0 5, oneByOne)]).2.server.objs =
        { state := false, calls := [.outSet 0 5 true, .outToggle 0 5, .inValue 0 5] } ∧
    Idle (callAll .little (lineLink 32) [(.outSet 0 5 true, oneByOne), (.outToggle 0 5, oneByOne),
      (.inValue 0 5, oneByOne)]).2 := by
  have hl : Port.Lossless (.deliver []) := fun _ hr ↦ (nomatch hr)
  refine callAll_transparent .little 0 line (lineLink 32) _ ⟨rfl, hl, rfl, hl, rfl, rfl⟩ ?_
  simp only [List.forall_mem_cons, List.not_mem_nil, false_imp_iff, implies_true, and_true]
  exact ⟨⟨by decide, by decide, rfl⟩, ⟨by decide, by decide, rfl⟩, by decide, by decide, rfl⟩

/-- A command buffer of sixteen bytes has no room for the second parameter of `set`: the line
is set where it should be cleared, and a byte is left at the server. -/
theorem callAll_not_transparent :
    Idle (lineLink 16) ∧
    (lineLink 16).server.srvr.objReg.getObj (Call.outSet 0 5 false).key =
      some ((Call.outSet 0 5 false).obj .little 0 line) ∧
    (callAll .little (lineLink 16) [(.outSet 0 5 false, oneByOne)]).2.server.objs.calls =
      [.outSet 0 5 true] ∧
    (callAll .little (lineLink 16) [(.outSet 0 5 false, oneByOne)]).2.server.srvr.port.rd =
      [.chunk 0 []] := by
  have hl : Port.Lossless (.deliver []) := fun _ hr ↦ (nomatch hr)
  exact ⟨⟨rfl, hl, rfl, hl, rfl, rfl⟩, rfl, by decide +kernel, by decide +kernel⟩

end Link
end CtrlrFx.DistObj
