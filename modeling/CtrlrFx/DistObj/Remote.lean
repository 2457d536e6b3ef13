import CtrlrFx.DistObj.DigIO
import CtrlrFx.DistObj.Pass

/-!
# Remote calls

A client's stubs and a server's skeletons joined by two byte pipes. Calling a method of a stub
is calling it on the port behind the skeleton, as long as the server's two buffers have room
for what the call takes.
-/

namespace CtrlrFx.DistObj
open Base Data Io

/-- A method call on the input or output port of an instance number. -/
inductive Call where
  | inWidth (inst : UInt16)
  | inValue (inst : UInt16) (bit : Int32)
  | outWidth (inst : UInt16)
  | outSet (inst : UInt16) (bit : Int32) (b : Bool)
  | outClear (inst : UInt16) (bit : Int32)
  | outToggle (inst : UInt16) (bit : Int32)
  deriving DecidableEq, Repr

/-- What a call returns. -/
inductive Result where
  | int (n : Int32)
  | bool (b : Bool)
  | done
  deriving DecidableEq, Repr

/-- The ports of a server, by instance number, over one state. -/
structure Impl (τ : Type) where
  ins : UInt16 → DigIn τ
  outs : UInt16 → DigOut τ

/-- A call made directly on a port. -/
def Impl.apply {τ : Type} (impl : Impl τ) : Call → τ → Result × τ
  | .inWidth inst, s => ((Result.int ((impl.ins inst).width s).1), ((impl.ins inst).width s).2)
  | .inValue inst bit, s =>
    (.bool ((impl.ins inst).value bit s).1, ((impl.ins inst).value bit s).2)
  | .outWidth inst, s => (.int ((impl.outs inst).width s).1, ((impl.outs inst).width s).2)
  | .outSet inst bit b, s => (.done, (impl.outs inst).set bit b s)
  | .outClear inst bit, s => (.done, (impl.outs inst).clear bit s)
  | .outToggle inst bit, s => (.done, (impl.outs inst).toggle bit s)

/-- Calls made directly, one after another. -/
def Impl.applyAll {τ : Type} (impl : Impl τ) : List Call → τ → List Result × τ
  | [], s => ([], s)
  | c :: cs, s =>
    ((impl.apply c s).1 :: (impl.applyAll cs (impl.apply c s).2).1,
      (impl.applyAll cs (impl.apply c s).2).2)

/-- The state of the ports with a record of the calls that reached them. -/
structure World (τ : Type) where
  state : τ
  calls : List Call

/-- A recorded call. -/
def World.record {τ : Type} (w : World τ) (c : Call) (s : τ) : World τ :=
  { state := s, calls := w.calls ++ [c] }

/-- An input port that records the calls it gets. -/
def Impl.recIn {τ : Type} (impl : Impl τ) (inst : UInt16) : DigIn (World τ) where
  width w := (((impl.ins inst).width w.state).1,
    w.record (.inWidth inst) ((impl.ins inst).width w.state).2)
  value bit w := (((impl.ins inst).value bit w.state).1,
    w.record (.inValue inst bit) ((impl.ins inst).value bit w.state).2)

/-- An output port that records the calls it gets. -/
def Impl.recOut {τ : Type} (impl : Impl τ) (inst : UInt16) : DigOut (World τ) where
  width w := (((impl.outs inst).width w.state).1,
    w.record (.outWidth inst) ((impl.outs inst).width w.state).2)
  set bit b w := w.record (.outSet inst bit b) ((impl.outs inst).set bit b w.state)
  clear bit w := w.record (.outClear inst bit) ((impl.outs inst).clear bit w.state)
  toggle bit w := w.record (.outToggle inst bit) ((impl.outs inst).toggle bit w.state)

namespace Call

/-- Key of the object a call is for. -/
def key : Call → UInt32
  | inWidth inst | inValue inst _ => tgtObj classDigIn inst
  | outWidth inst | outSet inst _ _ | outClear inst _ | outToggle inst _ =>
    tgtObj classDigOut inst

/-- Operation of a call. -/
def op : Call → UInt32
  | inWidth _ => DigInCmd.width.op
  | inValue _ _ => DigInCmd.value.op
  | outWidth _ => DigOutCmd.width.op
  | outSet _ _ _ => DigOutCmd.set.op
  | outClear _ _ => DigOutCmd.clear.op
  | outToggle _ _ => DigOutCmd.toggle.op

/-- The skeleton of the object a call is for. -/
def obj {τ : Type} (e : Endian) (junk : Int32) (impl : Impl τ) : Call → IDistObj (World τ)
  | inWidth inst | inValue inst _ => DigInSkel.obj e junk (impl.recIn inst)
  | outWidth inst | outSet inst _ _ | outClear inst _ | outToggle inst _ =>
    DigOutSkel.obj e junk (impl.recOut inst)

/-- A call made on a stub. -/
def perform {ω : Type} (e : Endian) (srvr : ObjSrvr ω) (k : Stack) (c : Call) (w : ω) :
    Result × ω :=
  match c with
  | inWidth _ => let r := DigInStub.width e srvr c.key k w; (.int r.1, r.2)
  | inValue _ bit => let r := DigInStub.value e srvr c.key k bit w; (.bool r.1, r.2)
  | outWidth _ => let r := DigOutStub.width e srvr c.key k w; (.int r.1, r.2)
  | outSet _ bit b => (.done, DigOutStub.set e srvr c.key k bit b w)
  | outClear _ bit => (.done, DigOutStub.clear e srvr c.key k bit w)
  | outToggle _ bit => (.done, DigOutStub.toggle e srvr c.key k bit w)

/-- Bytes of the packet payload a call takes: the command header and the parameters. -/
def cmdSize : Call → Nat
  | inWidth _ | outWidth _ => 12
  | inValue _ _ | outClear _ _ | outToggle _ _ => 16
  | outSet _ _ _ => 17

/-- Bytes of the response body a call takes. -/
def rspSize : Call → Nat
  | inWidth _ | outWidth _ => 4
  | inValue _ _ => 1
  | outSet _ _ _ | outClear _ _ | outToggle _ _ => 0

end Call

/-! ### The joined system -/

/-- A client and a server whose ports are joined. -/
structure Link (τ : Type) where
  client : DistObjSrvr Unit
  server : Run (World τ)

/-- How one exchange goes: into which chunks the bytes fall on their way to the server and
back, and what the memory of the server's scan and of the stub's buffers holds. -/
structure Journey where
  up : List UInt8 → List (List UInt8)
  down : List UInt8 → List (List UInt8)
  flatten_up : ∀ bs, (up bs).flatten = bs
  flatten_down : ∀ bs, (down bs).flatten = bs
  magic : Magic
  stack : Stack

namespace Link

variable {τ : Type} (e : Endian) (j : Journey)

/-- Chunks that arrive at a port. -/
def arrive (p : Port) (chunks : List (List UInt8)) : Port :=
  { p with rd := p.rd ++ chunks.foldr Port.leave [] }

/-- The server serves the bytes that the client wrote, while the client waits. -/
def serve (bs : List UInt8) (s : Run (World τ)) : Run (World τ) :=
  Run.pass e { s with srvr := { s.srvr with port := arrive s.srvr.port (j.up bs) } }
    { magic := j.magic, quit := false }

/-- `send` of the joined client: what it writes goes to the server, and what the server writes
is what its reads find. -/
def send (msgType : UInt8) (packet rsp : Buffer UInt8) (l : Link τ) :
    Int32 × Buffer UInt8 × Buffer UInt8 × Link τ :=
  let w := l.client.sendCmd e msgType packet
  let server := serve e j (w.2.2.port.sent.drop l.client.port.sent.length) l.server
  let back := server.srvr.port.sent.drop l.server.srvr.port.sent.length
  let r := { l.client with port := arrive l.client.port (j.down back) }.send e msgType packet rsp
  (r.1, r.2.1, r.2.2.1, { client := r.2.2.2, server })

/-- The joined client as its stubs use it. -/
def objSrvr : ObjSrvr (Link τ) where
  nextMsgId l := (l.client.nextMsgId.1, { l with client := l.client.nextMsgId.2 })
  send msgType packet rsp l := send e j msgType packet rsp l

/-- Calls made on stubs, one after another. -/
def callAll (l : Link τ) : List (Call × Journey) → List Result × Link τ
  | [] => ([], l)
  | (c, j) :: cs =>
    let r := c.perform e (objSrvr e j) j.stack l
    (r.1 :: (callAll r.2 cs).1, (callAll r.2 cs).2)

/-- Between two calls: the loop of the server goes on, both pipes are empty, and no write
fails. -/
structure Idle (l : Link τ) : Prop where
  client_rd : l.client.port.rd = []
  client_lossless : l.client.port.Lossless
  server_rd : l.server.srvr.port.rd = []
  server_lossless : l.server.srvr.port.Lossless
  running : l.server.running = true
  quit : l.server.srvr.quit = false

/-- The server's buffers have room for a call, and its object is registered. -/
structure Serves (junk : Int32) (impl : Impl τ) (l : Link τ) (c : Call) : Prop where
  cmd : c.cmdSize ≤ l.server.srvr.cmdBuf.capacity
  rsp : c.rspSize ≤ l.server.srvr.rspBuf.capacity
  obj : l.server.srvr.objReg.getObj c.key = some (c.obj e junk impl)

end Link

/-! ### The client's packet -/

/-- Header of a command as the client encodes it. -/
def cmdBytes (e : Endian) (id tgt op : UInt32) : List UInt8 :=
  NativeRep.bytes e id ++ NativeRep.bytes e tgt ++ NativeRep.bytes e op

@[simp] theorem length_cmdBytes (e : Endian) (id tgt op : UInt32) :
    (cmdBytes e id tgt op).length = 12 := by
  simp only [cmdBytes, List.length_append, NativeRep.length_bytes]
  rfl

/-- The server decodes what the client encoded, whatever follows. -/
theorem decode_cmdBytes (e : Endian) (id tgt op : UInt32) (rest : List UInt8) :
    CmdHdr.decode e (cmdBytes e id tgt op ++ rest) =
      { msgId := id, tgtObj := tgt, operation := op } := by
  have h4 (v : UInt32) : (NativeRep.bytes e v).length = 4 := NativeRep.length_bytes e v
  have h0 : Block.read (cmdBytes e id tgt op ++ rest) 0 4 = NativeRep.bytes e id := by
    rw [Block.read, List.drop_zero, cmdBytes, List.append_assoc, List.append_assoc]
    exact List.take_left' (h4 id)
  have h1 : Block.read (cmdBytes e id tgt op ++ rest) 4 4 = NativeRep.bytes e tgt := by
    rw [Block.read, cmdBytes, List.append_assoc, List.append_assoc, List.drop_left' (h4 id)]
    exact List.take_left' (h4 tgt)
  have h2 : Block.read (cmdBytes e id tgt op ++ rest) 8 4 = NativeRep.bytes e op := by
    have h8 : (NativeRep.bytes e id ++ NativeRep.bytes e tgt).length = 8 := by
      rw [List.length_append, h4, h4]
    rw [Block.read, cmdBytes, List.append_assoc, List.drop_left' h8]
    exact List.take_left' (h4 op)
  simp only [CmdHdr.decode, h0, h1, h2, NativeRep.value_bytes]

/-- The buffer of a stub once the header is in it. -/
structure HasHdr (e : Endian) (id tgt op : UInt32) (b : Buffer UInt8) : Prop where
  valid : b.Valid
  pos : b.pos = 12
  lim : b.lim = 256
  written : b.written = cmdBytes e id tgt op

theorem putCmdHdr_spec {ω : Type} (e : Endian) (srvr : ObjSrvr ω) (tgt : UInt32) (k : Stack)
    (cmd : UInt32) (w : ω) :
    ∃ b, putCmdHdr e srvr tgt { buf := .fixed k.cmd, good := true } cmd w =
        ({ buf := b, good := true }, (srvr.nextMsgId w).2) ∧
      HasHdr e (srvr.nextMsgId w).1 tgt cmd b := by
  have hw : Buffer.Width (NativeRep.size UInt32) := .inr (.inr (.inl rfl))
  have hs : NativeRep.size UInt32 = 4 := rfl
  have hl : (Buffer.fixed k.cmd).lim = 256 := k.length_cmd
  obtain ⟨b1, h1, v1, p1, l1, w1⟩ := BufCodec.put_append (e := e) hw (Buffer.valid_fixed k.cmd)
    (Nat.dvd_zero _) (by rw [hl]; exact Nat.le_of_ble_eq_true rfl) (srvr.nextMsgId w).1
  have p1' : b1.pos = 4 := p1
  rw [hl] at l1
  obtain ⟨b2, h2, v2, p2, l2, w2⟩ := BufCodec.put_append (e := e) hw v1
    (by rw [p1', hs]) (by rw [p1', l1, hs]; decide) tgt
  have p2' : b2.pos = 8 := by rw [p2, p1', hs]
  rw [l1] at l2
  obtain ⟨b3, h3, v3, p3, l3, w3⟩ := BufCodec.put_append (e := e) hw v2
    (by rw [p2', hs]; decide) (by rw [p2', l2, hs]; decide) cmd
  refine ⟨b3, ?_, v3, by rw [p3, p2', hs], by rw [l3, l2], ?_⟩
  · simp only [putCmdHdr, h1, h2, h3]
  · rw [w3, w2, w1, cmdBytes]
    rfl

namespace Call

/-- Parameters of a call as its stub puts them. -/
def putArgs (e : Endian) : Call → BufCodec → BufCodec
  | inWidth _ | outWidth _ => id
  | inValue _ bit => fun enc ↦ (enc.put e bit.toUInt32).2
  | outSet _ bit b => fun enc ↦ ((enc.put e bit).2.putBool e b).2
  | outClear _ bit | outToggle _ bit => fun enc ↦ (enc.put e bit).2

/-- Bytes of these parameters. -/
def args (e : Endian) : Call → List UInt8
  | inWidth _ | outWidth _ => []
  | inValue _ bit | outClear _ bit | outToggle _ bit => NativeRep.bytes e bit
  | outSet _ bit b => NativeRep.bytes e bit ++ NativeRep.bytes e b

/-- What a stub returns for a reply and a response body. -/
def decode (e : Endian) : Call → Int32 → Buffer UInt8 → Result
  | inWidth _, ret, rsp | outWidth _, ret, rsp =>
    .int (if ret ≠ 0 then 0 else (BufCodec.get e { buf := rsp, good := true } (0 : Int32)).2.1)
  | inValue _ _, ret, rsp =>
    .bool (if ret ≠ 0 then false else (BufCodec.get e { buf := rsp, good := true } false).2.1)
  | outSet _ _ _, _, _ | outClear _ _, _, _ | outToggle _ _, _, _ => .done

theorem putArgs_outSet (e : Endian) (inst : UInt16) (bit : Int32) (b : Bool) (enc : BufCodec) :
    (outSet inst bit b).putArgs e enc = ((enc.put e bit).2.putBool e b).2 := rfl

/-- Every stub sends a request and decodes the response. -/
theorem perform_eq {ω : Type} (e : Endian) (srvr : ObjSrvr ω) (k : Stack) (c : Call) (w : ω) :
    c.perform e srvr k w =
      (c.decode e (request e srvr c.key k c.op (c.putArgs e) w).1
        (request e srvr c.key k c.op (c.putArgs e) w).2.1,
        (request e srvr c.key k c.op (c.putArgs e) w).2.2) := by
  have hite {p : Prop} [Decidable p] {α : Type} (x y : α) (s : ω) :
      (if p then (x, s) else (y, s)) = (if p then x else y, s) := by
    by_cases h : p
    · rw [if_pos h, if_pos h]
    · rw [if_neg h, if_neg h]
  cases c with
  | inWidth inst =>
    simp only [perform, DigInStub.width, hite, op, putArgs]
    generalize request e srvr _ k _ _ w = r
    rfl
  | inValue inst bit =>
    simp only [perform, DigInStub.value, hite, op, putArgs]
    generalize request e srvr _ k _ _ w = r
    rfl
  | outWidth inst =>
    simp only [perform, DigOutStub.width, hite, op, putArgs]
    generalize request e srvr _ k _ _ w = r
    rfl
  | outSet inst bit b => rfl
  | outClear inst bit => rfl
  | outToggle inst bit => rfl

theorem put_toUInt32 (e : Endian) (enc : BufCodec) (bit : Int32) :
    enc.put e bit.toUInt32 = enc.put e bit := by
  rw [BufCodec.put, BufCodec.put]
  rfl

theorem putBool_eq (e : Endian) (enc : BufCodec) (b : Bool) : enc.putBool e b = enc.put e b := by
  rw [BufCodec.putBool, BufCodec.put, BufCodec.put]
  rfl

theorem width_int32 : Buffer.Width (NativeRep.size Int32) := .inr (.inr (.inl rfl))

theorem width_bool : Buffer.Width (NativeRep.size Bool) := .inl rfl

theorem length_args (e : Endian) (c : Call) : 12 + (c.args e).length = c.cmdSize := by
  have h4 (v : Int32) : (NativeRep.bytes e v).length = 4 := NativeRep.length_bytes e v
  have h1 (b : Bool) : (NativeRep.bytes e b).length = 1 := NativeRep.length_bytes e b
  cases c <;> simp only [args, cmdSize, List.length_append, List.length_nil, h4, h1]

/-- The parameters follow the header in the buffer of the stub. -/
theorem putArgs_spec {e : Endian} {id tgt op : UInt32} {b : Buffer UInt8}
    (hb : HasHdr e id tgt op b) (c : Call) :
    ∃ b', c.putArgs e { buf := b, good := true } = { buf := b', good := true } ∧ b'.Valid ∧
      b'.written = cmdBytes e id tgt op ++ c.args e := by
  have hs : NativeRep.size Int32 = 4 := rfl
  have hbit (bit : Int32) := BufCodec.put_append (e := e) width_int32 hb.valid
    (by rw [hb.pos, hs]; decide) (by rw [hb.pos, hb.lim, hs]; decide) bit
  have hone (bit : Int32) : ∃ b', ((BufCodec.put e { buf := b, good := true } bit).2 : BufCodec) =
      { buf := b', good := true } ∧ b'.Valid ∧
        b'.written = cmdBytes e id tgt op ++ NativeRep.bytes e bit := by
    obtain ⟨b', h', v', -, -, w'⟩ := hbit bit
    exact ⟨b', by rw [h'], v', by rw [w', hb.written]⟩
  cases c with
  | inWidth inst => exact ⟨b, rfl, hb.valid, by rw [hb.written, args, List.append_nil]⟩
  | outWidth inst => exact ⟨b, rfl, hb.valid, by rw [hb.written, args, List.append_nil]⟩
  | inValue inst bit =>
    obtain ⟨b', h', hb'⟩ := hone bit
    exact ⟨b', by simp only [putArgs, put_toUInt32, h'], hb'⟩
  | outClear inst bit =>
    obtain ⟨b', h', hb'⟩ := hone bit
    exact ⟨b', by simp only [putArgs, h'], hb'⟩
  | outToggle inst bit =>
    obtain ⟨b', h', hb'⟩ := hone bit
    exact ⟨b', by simp only [putArgs, h'], hb'⟩
  | outSet inst bit v =>
    obtain ⟨b1, h1, v1, p1, l1, w1⟩ := hbit bit
    obtain ⟨b2, h2, v2, -, -, w2⟩ := BufCodec.put_append (e := e) width_bool v1 (Nat.one_dvd _)
      (by rw [p1, l1, hb.pos, hb.lim]; decide) v
    have hput1 : (BufCodec.put e { buf := b, good := true } bit).2 =
        { buf := b1, good := true } := by rw [h1]
    have hput2 : (BufCodec.putBool e { buf := b1, good := true } v).2 =
        { buf := b2, good := true } := by rw [putBool_eq, h2]
    refine ⟨b2, ?_, v2, by rw [w2, w1, hb.written, List.append_assoc, args]⟩
    rw [putArgs_outSet, hput1, hput2]

end Call

end CtrlrFx.DistObj
