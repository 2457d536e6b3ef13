import CtrlrFx.DistObj.Registry
import CtrlrFx.Io.Port

/-!
# Distributed object server

`src/DistObj/DistObjSrvr.cpp` with the packet headers of `CtrlrFx/BinDistObj.h`. `send` is
the client's side of a command. `run` is the server's: every pass of its loop scans for a
packet header, reads the payload into the command buffer, dispatches the command and writes
the response. The local variables of `run` live across its passes and so are part of its
state.
-/

namespace CtrlrFx.DistObj
open Base Data Io

/-- The first magic byte of a packet, `'C'`. -/
def magicC : UInt8 := 67

/-- The second magic byte of a packet, `'X'`. -/
def magicX : UInt8 := 88

/-- Message type of commands; `CtrlrFx/BinDistObj.h:13`. -/
def msgTypeCmd : UInt8 := 0

/-- Message type of responses; `CtrlrFx/BinDistObj.h:14`. -/
def msgTypeRsp : UInt8 := 1

/-- The eight bytes of a packet header: magic, byte order, message type and message size;
`CtrlrFx/BinDistObj.h:35–41`. -/
structure PktHdr where
  bytes : List UInt8
  size_eq : bytes.length = 8
  deriving DecidableEq, Repr

instance : Inhabited PktHdr := ⟨{ bytes := List.replicate 8 0, size_eq := rfl }⟩

namespace PktHdr

/-- Stores bytes into the header from offset `i` on. -/
def store (h : PktHdr) (i : Nat) (bs : List UInt8) : PktHdr :=
  { bytes := Block.write h.bytes i bs
    size_eq := by rw [Block.length_write, h.size_eq] }

/-- Message type of a header's bytes. -/
def msgType (bytes : List UInt8) : UInt8 := bytes.getD 3 0

/-- Message size of a header's bytes. -/
def msgSize (e : Endian) (bytes : List UInt8) : UInt32 := NativeRep.value e (bytes.drop 4)

/-- The bytes of a packet header. -/
def encode (e : Endian) (byteOrder msgType : UInt8) (msgSize : UInt32) : List UInt8 :=
  [magicC, magicX, byteOrder, msgType] ++ NativeRep.bytes e msgSize

theorem length_encode (e : Endian) (byteOrder msgType : UInt8) (msgSize : UInt32) :
    (encode e byteOrder msgType msgSize).length = 8 := by
  rw [encode, List.length_append, NativeRep.length_bytes]
  rfl

end PktHdr

/-- Header of a command; `CtrlrFx/BinDistObj.h:46–51`. -/
structure CmdHdr where
  msgId : UInt32
  tgtObj : UInt32
  operation : UInt32
  deriving DecidableEq, Inhabited, Repr

/-- Members of a server; `CtrlrFx/DistObjSrvr.h:30–37`. -/
structure DistObjSrvr (σ : Type) where
  port : Port
  objReg : DistObjRegistry (IDistObj σ)
  msgId : UInt32
  cmdBuf : Buffer UInt8
  rspBuf : Buffer UInt8
  quit : Bool

/-! ### Client side -/

namespace DistObjSrvr

variable {σ : Type} (e : Endian)

/-- A server on newly allocated buffers, an empty registry and the port it is given;
`src/DistObj/DistObjSrvr.cpp:20–24`. -/
def create (port : Port) (entries : List (ObjMap (IDistObj σ))) (cmd rsp : List UInt8) :
    DistObjSrvr σ :=
  { port
    objReg := .create entries
    msgId := 0
    cmdBuf := .alloc cmd
    rspBuf := .alloc rsp
    quit := false }

/-- `src/DistObj/DistObjSrvr.cpp:80–86`. -/
def registerObj (d : DistObjSrvr σ) (key : UInt32) (obj : Option (IDistObj σ)) :
    Int × DistObjSrvr σ :=
  let r := d.objReg.registerObj key obj
  (r.1, { d with objReg := r.2 })

/-- `CtrlrFx/DistObjSrvr.h:61`. -/
def nextMsgId (d : DistObjSrvr σ) : UInt32 × DistObjSrvr σ :=
  (d.msgId, { d with msgId := d.msgId + 1 })

/-- The half of `send` that writes the packet; `src/DistObj/DistObjSrvr.cpp:93–106`. -/
def sendCmd (d : DistObjSrvr σ) (msgType : UInt8) (packet : Buffer UInt8) :
    Int32 × Buffer UInt8 × DistObjSrvr σ :=
  let w := d.port.writeN (PktHdr.encode e 0 msgType (UInt32.ofNat packet.available))
  if w.1 < 0 then (-3, packet, { d with port := w.2 })
  else
    let v := w.2.writeBuf packet
    (if v.1 < 0 then -3 else 0, v.2.1, { d with port := v.2.2 })

/-- The half of `send` that waits for the response;
`src/DistObj/DistObjSrvr.cpp:110–124`. -/
def recvRsp (d : DistObjSrvr σ) (rsp : Buffer UInt8) : Int32 × Buffer UInt8 × DistObjSrvr σ :=
  let r := d.port.readN 8
  if r.ret ≠ 8 then (-4, rsp, { d with port := r.port })
  else
    let q := r.port.readN 8
    if q.ret ≠ 8 then (-4, rsp, { d with port := q.port })
    else
      let n := PktHdr.msgSize e r.bytes - 8
      let reply : Int32 := NativeRep.value e (q.bytes.drop 4)
      if n ≠ 0 then
        let v := q.port.readBuf (rsp.setSize n.toNat)
        (reply, v.2.flip, { d with port := v.1.port })
      else (reply, rsp, { d with port := q.port })

/-- Sends a packet and waits for the response; `src/DistObj/DistObjSrvr.cpp:91–125`. -/
def send (d : DistObjSrvr σ) (msgType : UInt8) (packet rsp : Buffer UInt8) :
    Int32 × Buffer UInt8 × Buffer UInt8 × DistObjSrvr σ :=
  let w := sendCmd e d msgType packet
  if w.1 < 0 then (w.1, w.2.1, rsp, w.2.2)
  else
    let r := recvRsp e w.2.2 rsp
    (r.1, w.2.1, r.2)

end DistObjSrvr

/-! ### Packet headers -/

/-- The two bytes under scan. -/
structure Magic where
  fst : UInt8
  snd : UInt8
  deriving DecidableEq, Inhabited, Repr

namespace Magic

/-- Stores bytes from offset `nx` on. -/
def store (m : Magic) (nx : Nat) : List UInt8 → Magic
  | [] => m
  | a :: as => if nx = 0 then { fst := a, snd := as.headD m.snd } else { m with snd := a }

/-- A `'C'` in second place moves to the first, and from then on single bytes are read;
`src/DistObj/DistObjSrvr.cpp:58–62`. -/
def shift (m : Magic) (nx : Nat) : Magic × Nat :=
  if m.snd = magicC then ({ fst := magicC, snd := 0 }, 1) else (m, nx)

theorem store_one (m : Magic) (a : UInt8) : m.store 0 [a] = { m with fst := a } := rfl

theorem store_two (m : Magic) (a b : UInt8) : m.store 0 [a, b] = { fst := a, snd := b } := rfl

theorem store_snd (m : Magic) (b : UInt8) : m.store 1 [b] = { m with snd := b } := rfl

theorem shift_of_eq {m : Magic} (h : m.snd = magicC) (nx : Nat) :
    m.shift nx = ({ fst := magicC, snd := 0 }, 1) := if_pos h

theorem shift_of_ne {m : Magic} (h : m.snd ≠ magicC) (nx : Nat) : m.shift nx = (m, nx) :=
  if_neg h

end Magic

/-- The loop of `get_pkt_hdr` and whether it came to its end, for `quit` what the loop reads
in `quit_`. Every round reads a byte, so that one more than there are bytes is enough;
`src/DistObj/DistObjSrvr.cpp:54–64`. -/
def scan (quit : Bool) : Nat → Magic → Nat → Port → Bool × Port
  | 0, _, _, p => (false, p)
  | k + 1, m, nx, p =>
    let r := p.readN (2 - nx)
    if r.ret ≤ 0 then (false, r.port)
    else
      let s := (m.store nx r.bytes).shift nx
      if s.1 ≠ { fst := magicC, snd := magicX } ∧ !quit then scan quit k s.1 s.2 r.port
      else (true, r.port)

/-- Waits for a packet header, with `magic` what the memory of the scan held before;
`src/DistObj/DistObjSrvr.cpp:49–74`. -/
def getPktHdr (quit : Bool) (magic : Magic) (p : Port) (h : PktHdr) : Int × PktHdr × Port :=
  let s := scan quit (p.coming + 1) magic 0 p
  if !s.1 then (-1, h, s.2)
  else if quit then (-8, h, s.2)
  else
    let h := h.store 0 [magicC, magicX]
    let r := s.2.readN 6
    (if r.ret < 0 then r.ret else 0, h.store 2 r.bytes, r.port)

/-! ### Server side -/

/-- A dispatch: the command header used, and the parameters the decoder holds. -/
structure Dispatch where
  hdr : CmdHdr
  param : List UInt8
  deriving DecidableEq, Repr

/-- State of `run`: the server, its local variables, the objects, and whether the loop goes
on. `hdrs` records, for every header taken, the number of bytes read up to its end and the
header; `calls` records the dispatches. -/
structure Run (σ : Type) where
  srvr : DistObjSrvr σ
  pktHdr : PktHdr
  cmdHdr : CmdHdr
  objs : σ
  running : Bool
  hdrs : List (Nat × List UInt8)
  calls : List Dispatch

/-- What a pass finds in the memory of its scan, and whether `quit` is called while it waits
for the header. -/
structure Entry where
  magic : Magic
  quit : Bool
  deriving DecidableEq, Inhabited, Repr

namespace Run

variable {σ : Type} (e : Endian)

/-- Reads the payload; `src/DistObj/DistObjSrvr.cpp:170–174`. -/
def readPayload (s : Run σ) : BufCodec × Port :=
  let v := s.srvr.port.readBuf
    (s.srvr.cmdBuf.clearTo (PktHdr.msgSize e s.pktHdr.bytes).toNat)
  (BufCodec.rewind { buf := v.2.flip, good := true }, v.1.port)

/-- Gets the command header, whose fields keep their values where the gets fail;
`src/DistObj/DistObjSrvr.cpp:187–189`. -/
def getCmdHdr (c : BufCodec) (h : CmdHdr) : CmdHdr × BufCodec :=
  let r := c.get e h.msgId
  let q := r.2.2.get e h.tgtObj
  let o := q.2.2.get e h.operation
  ({ msgId := r.2.1, tgtObj := q.2.1, operation := o.2.1 }, o.2.2)

/-- Writes the response; `src/DistObj/DistObjSrvr.cpp:215–230`. -/
def respond (s : Run σ) (ret : Int32) : Run σ :=
  let rspBuf := s.srvr.rspBuf.flip
  let msgSize := UInt32.ofNat (8 + rspBuf.available)
  let pktHdr := (s.pktHdr.store 3 [msgTypeRsp]).store 4 (NativeRep.bytes e msgSize)
  let w := s.srvr.port.writeN pktHdr.bytes
  let x := w.2.writeN (NativeRep.bytes e s.cmdHdr.msgId ++ NativeRep.bytes e ret)
  let v := if msgSize > 0 then (x.2.writeBuf rspBuf).2 else (rspBuf, x.2)
  { s with pktHdr, srvr := { s.srvr with rspBuf := v.1, port := v.2 } }

/-- Handles the packet whose header was taken; `src/DistObj/DistObjSrvr.cpp:167–230`. -/
def serve (s : Run σ) : Run σ :=
  let c := s.readPayload e
  let s : Run σ := { s with srvr := { s.srvr with cmdBuf := c.1.buf, port := c.2 } }
  if PktHdr.msgType s.pktHdr.bytes ≠ msgTypeCmd then s
  else
    let h := getCmdHdr e c.1 s.cmdHdr
    let rsp := BufCodec.clear { buf := s.srvr.rspBuf, good := true }
    let r := s.srvr.objReg.dispatch h.1.tgtObj h.1.operation h.2 rsp s.objs
    let s : Run σ := { s with
      cmdHdr := h.1
      objs := r.objs
      srvr := { s.srvr with cmdBuf := r.param.buf, rspBuf := r.rsp.buf }
      calls := s.calls ++ [{ hdr := h.1, param := h.2.buf.unread }] }
    s.respond e r.ret

/-- One pass of the loop of `run`; `src/DistObj/DistObjSrvr.cpp:151–231`. -/
def pass (s : Run σ) (a : Entry) : Run σ :=
  if !s.running then s
  else if s.srvr.quit then { s with running := false }
  else
    let g := getPktHdr a.quit a.magic s.srvr.port s.pktHdr
    let s : Run σ := { s with
      pktHdr := g.2.1
      srvr := { s.srvr with port := g.2.2, quit := a.quit } }
    if a.quit ∨ g.1 < 0 then { s with running := false }
    else
      let s : Run σ := { s with hdrs := s.hdrs ++ [(s.srvr.port.taken, s.pktHdr.bytes)] }
      s.serve e

/-- The passes of `run`; `src/DistObj/DistObjSrvr.cpp:142–234`. -/
def passes (s : Run σ) : List Entry → Run σ
  | [] => s
  | a :: as => passes (s.pass e a) as

/-- `run` as it is entered, with what its local variables hold. -/
def start (d : DistObjSrvr σ) (pktHdr : PktHdr) (cmdHdr : CmdHdr) (objs : σ) : Run σ :=
  { srvr := d, pktHdr, cmdHdr, objs, running := true, hdrs := [], calls := [] }

end Run
end CtrlrFx.DistObj
