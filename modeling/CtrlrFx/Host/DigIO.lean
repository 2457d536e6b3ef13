import CtrlrFx.DistObj.Transparency

/-!
# Ruby clients of digital ports

`host/ruby/lib/CtrlrFx.rb` and `host/ruby/lib/DigIO.rb`: the packets that the stubs of the
scripting hosts write, on a host with a 32-bit `int` and the low byte first.
-/

namespace CtrlrFx.Host
open Base Data DistObj

/-! ### Values and packing -/

/-- Values of the language that the stubs meet. -/
inductive Val where
  | nil
  | bool (b : Bool)
  | int (n : Int)
  | str (bs : List UInt8)
  deriving DecidableEq, Repr

/-- Exceptions. -/
inductive Err where
  | argumentError
  | noMethodError
  | typeError
  deriving DecidableEq, Repr

namespace Val

/-- `v || w` -/
def orElse (v w : Val) : Val :=
  match v with
  | nil | bool false => w
  | v => v

/-- `to_int`, which only integers have. -/
def toInt : Val → Except Err Int
  | int n => .ok n
  | _ => .error .noMethodError

/-- Which of the two values of a flag this is, also by the words of `DigIn_stub#value`. -/
def flag : Val → Option Bool
  | nil => some false
  | bool b => some b
  | int 0 => some false
  | int 1 => some true
  | int _ | str _ => none

end Val

/-- Directives of a template: a string of a width, a byte, and a native `int` with or without
sign. -/
inductive Directive where
  | A (n : Nat)
  | C
  | I_
  | i_
  deriving DecidableEq, Repr

/-- Low bytes of an integer. -/
def Directive.ofInt (size : Nat) (n : Int) : List UInt8 :=
  leBytes size (n % (256 ^ size : Nat)).toNat

/-- Bytes of a value under a directive. -/
def Directive.pack : Directive → Val → Except Err (List UInt8)
  | A n, .str bs => .ok (bs.take n ++ List.replicate (n - bs.length) 32)
  | A n, .nil => .ok (List.replicate n 32)
  | A _, _ => .error .typeError
  | C, .int n => .ok (ofInt 1 n)
  | C, _ => .error .typeError
  | I_, .int n | i_, .int n => .ok (ofInt 4 n)
  | I_, _ | i_, _ => .error .typeError

/-- `Array#pack` -/
def pack : List Val → List Directive → Except Err (List UInt8)
  | _, [] => .ok []
  | [], _ :: _ => .error .argumentError
  | v :: vs, d :: ds => do
    let b ← d.pack v
    let bs ← pack vs ds
    return b ++ bs

/-! ### Headers -/

/-- `host/ruby/lib/CtrlrFx.rb:10–12` -/
def tgtObj (tgtClass tgtInst : Nat) : Val := .int ((tgtClass <<< 16 ||| tgtInst : Nat) : Int)

/-- `host/ruby/lib/CtrlrFx.rb:19–21` -/
structure BinPktHdr where
  magic : Val
  byteOrder : Val
  msgType : Val
  msgSize : Val

namespace BinPktHdr

/-- The constructor for a type and a size; `host/ruby/lib/CtrlrFx.rb:29–32`. -/
def new (msgType msgSize : Val) : BinPktHdr where
  magic := .str [67, 88]
  byteOrder := .int 0
  msgType := msgType
  msgSize := msgSize

/-- `host/ruby/lib/CtrlrFx.rb:38–40` -/
def toPkt (h : BinPktHdr) : Except Err (List UInt8) :=
  pack [h.magic, h.byteOrder, h.msgType, h.msgSize] [.A 2, .C, .C, .I_]

end BinPktHdr

/-- `host/ruby/lib/CtrlrFx.rb:56–57` -/
structure BinCmdHdr where
  msgId : Val
  tgtObj : Val
  operation : Val

/-- `host/ruby/lib/CtrlrFx.rb:72–74` -/
def BinCmdHdr.toPkt (h : BinCmdHdr) : Except Err (List UInt8) :=
  pack [h.msgId, h.tgtObj, h.operation] [.I_, .I_, .I_]

/-! ### Stubs -/

/-- Classes of the objects; `host/ruby/lib/DigIO.rb:12,61`. -/
def DigIn.tgtClass : Nat := 1

def DigOut.tgtClass : Nat := 2

/-- What every stub writes: the header of a packet, that of a command to instance 0 of a class,
and parameters. -/
def request (tgtClass : Nat) (op : Int) (params : List Val) (template : List Directive) :
    Except Err (List UInt8) := do
  let hdr ← { msgId := .int 0, tgtObj := tgtObj tgtClass 0, operation := .int op : BinCmdHdr }.toPkt
  let cmd := hdr ++ (← pack params template)
  return (← (BinPktHdr.new (.int 0) (.int cmd.length)).toPkt) ++ cmd

/-- A method with a fixed number of arguments. -/
def arity (n : Nat) (args : List Val) (body : Except Err (List UInt8)) :
    Except Err (List UInt8) :=
  if args.length = n then body else .error .argumentError

/-- `host/ruby/lib/DigIO.rb:31–41` -/
def DigInStub.width (args : List Val) : Except Err (List UInt8) :=
  arity 0 args (request DigIn.tgtClass 0 [] [])

/-- Takes no bit and sends none; `host/ruby/lib/DigIO.rb:43–53`. -/
def DigInStub.value (args : List Val) : Except Err (List UInt8) :=
  arity 0 args (request DigIn.tgtClass 1 [] [])

/-- `host/ruby/lib/DigIO.rb:82–92` -/
def DigOutStub.width (args : List Val) : Except Err (List UInt8) :=
  arity 0 args (request DigOut.tgtClass 0 [] [])

/-- `host/ruby/lib/DigIO.rb:94–103` -/
def DigOutStub.set (args : List Val) : Except Err (List UInt8) := do
  let bit := args.getD 0 .nil
  let on ← ((args.getD 1 .nil).orElse (.int 1)).toInt
  request DigOut.tgtClass 1 [bit, .int on] [.i_, .C]

/-- `host/ruby/lib/DigIO.rb:105–111` -/
def DigOutStub.clear (args : List Val) : Except Err (List UInt8) :=
  arity 1 args (request DigOut.tgtClass 2 args [.i_])

/-- `host/ruby/lib/DigIO.rb:113–119` -/
def DigOutStub.toggle (args : List Val) : Except Err (List UInt8) :=
  arity 1 args (request DigOut.tgtClass 3 args [.i_])

example : DigOutStub.set [.int 5, .int 0] =
    .ok [67, 88, 0, 0, 17, 0, 0, 0, 0, 0, 0, 0, 0, 0, 2, 0, 1, 0, 0, 0, 5, 0, 0, 0, 0] := by
  rfl

/-! ### Calls in both languages -/

/-- Calls on the two ports of instance 0. -/
inductive PortCall where
  | inWidth
  | inValue (bit : Int32)
  | outWidth
  | outSet (bit : Int32) (b : Bool)
  | outSetBit (bit : Int32)
  | outClear (bit : Int32)
  | outToggle (bit : Int32)
  deriving DecidableEq, Repr

namespace PortCall

/-- The call that reaches the port. -/
def call : PortCall → Call
  | inWidth => .inWidth 0
  | inValue bit => .inValue 0 bit
  | outWidth => .outWidth 0
  | outSet bit b => .outSet 0 bit b
  | outSetBit bit => .outSet 0 bit true
  | outClear bit => .outClear 0 bit
  | outToggle bit => .outToggle 0 bit

/-- The stub of the C++ library that makes the call. -/
def cpp {ω : Type} (e : Endian) (srvr : ObjSrvr ω) (k : Stack) (c : PortCall) (w : ω) : ω :=
  match c with
  | outSetBit bit => DistObj.DigOutStub.setBit e srvr (DistObj.tgtObj classDigOut 0) k bit w
  | c => (c.call.perform e srvr k w).2

/-- The Ruby stub of that name. -/
def ruby : PortCall → List Val → Except Err (List UInt8)
  | inWidth => DigInStub.width
  | inValue _ => DigInStub.value
  | outWidth => DigOutStub.width
  | outSet _ _ | outSetBit _ => DigOutStub.set
  | outClear _ => DigOutStub.clear
  | outToggle _ => DigOutStub.toggle

/-- Arguments in Ruby that stand for those of the call. The bit of `value`, which its stub does
not take, may be left out. -/
def Spelled : PortCall → List Val → Prop
  | inWidth, args | outWidth, args => args = []
  | inValue bit, args => args = [] ∨ args = [.int bit.toInt]
  | outSet bit b, args => ∃ v : Val, args = [.int bit.toInt, v] ∧ v.flag = some b
  | outSetBit bit, args | outClear bit, args | outToggle bit, args => args = [.int bit.toInt]

end PortCall

/-! ### Packets -/

/-- First bytes of a command. -/
def startOfCmd : List UInt8 := [67, 88, 0, 0]

theorem ofInt_toInt (bit : Int32) : Directive.ofInt 4 bit.toInt = NativeRep.bytes .little bit := by
  have ht : bit.toInt = bit.toBitVec.toInt := rfl
  have hn : (bit.toInt % (256 ^ 4 : Nat)).toNat = bit.toUInt32.toNat := by
    rw [ht, BitVec.toInt_eq_toNat_cond, Int32.toNat_toBitVec]
    have hlt := bit.toUInt32.toNat_lt
    split <;> omega
  exact congrArg (leBytes 4) hn

theorem ofInt_natCast {n : Nat} (h : n < 2 ^ 32) : Directive.ofInt 4 n = leBytes 4 n := by
  have hn : ((n : Int) % (256 ^ 4 : Nat)).toNat = n := by omega
  exact congrArg (leBytes 4) hn

theorem request_eq {tgtClass : Nat} {op : Int} {params : List Val} {template : List Directive}
    {bs : List UInt8} (h : pack params template = .ok bs) :
    request tgtClass op params template = .ok
      (startOfCmd ++ Directive.ofInt 4 (12 + bs.length : Nat) ++
        (Directive.ofInt 4 0 ++ Directive.ofInt 4 (tgtClass <<< 16 : Nat) ++
          Directive.ofInt 4 op ++ bs)) := by
  have hcmd : (⟨.int 0, tgtObj tgtClass 0, .int op⟩ : BinCmdHdr).toPkt =
      .ok (Directive.ofInt 4 0 ++ Directive.ofInt 4 (tgtClass <<< 16 : Nat) ++
        Directive.ofInt 4 op) := by
    simp [BinCmdHdr.toPkt, pack, Directive.pack, tgtObj, bind, Except.bind, pure, Except.pure]
  have hpkt (n : Int) : (BinPktHdr.new (.int 0) (.int n)).toPkt =
      .ok (startOfCmd ++ Directive.ofInt 4 n) := by
    simp [BinPktHdr.toPkt, BinPktHdr.new, pack, Directive.pack, bind, Except.bind, pure,
      Except.pure, startOfCmd]
    rfl
  have hlen : (Directive.ofInt 4 0 ++ Directive.ofInt 4 (tgtClass <<< 16 : Nat) ++
      Directive.ofInt 4 op ++ bs).length = 12 + bs.length := by
    simp only [List.length_append, Directive.ofInt, length_leBytes]
  simp only [request, hcmd, h, bind, Except.bind, pure, Except.pure, hlen, hpkt]

/-- The bytes that the C++ stub of a call sends. -/
theorem packet_eq (id : UInt32) (c : Call) :
    (c.packet .little id).bytes .little = startOfCmd ++ leBytes 4 c.cmdSize ++
      (leBytes 4 id.toNat ++ leBytes 4 c.key.toNat ++ leBytes 4 c.op.toNat ++ c.args .little) := by
  have hl := length_packet .little id c
  have hn : (UInt32.ofNat c.cmdSize).toNat = c.cmdSize := by
    have hb := c.cmdSize_bounds.2
    rw [UInt32.toNat_ofNat']
    omega
  rw [Packet.bytes, Packet.hdr, hl]
  show startOfCmd ++ leBytes 4 (UInt32.ofNat c.cmdSize).toNat ++ _ = _
  rw [hn]
  rfl

/-- A request with the parameters of a call is its packet, with message id 0. -/
theorem request_eq_packet {tgtClass : Nat} {op : Int} {params : List Val}
    {template : List Directive} {c : Call} (h : pack params template = .ok (c.args .little))
    (hkey : Directive.ofInt 4 (tgtClass <<< 16 : Nat) = leBytes 4 c.key.toNat)
    (hop : Directive.ofInt 4 op = leBytes 4 c.op.toNat) :
    request tgtClass op params template = .ok ((c.packet .little 0).bytes .little) := by
  have hlt : 12 + (c.args .little).length < 2 ^ 32 := by
    rw [Call.length_args]
    exact Nat.lt_of_le_of_lt c.cmdSize_bounds.2 (by decide)
  rw [request_eq h, packet_eq, ofInt_natCast hlt, Call.length_args, hkey, hop]
  rfl

/-- Two packets that are equal but for the message id. -/
def SameButMsgId (p q : List UInt8) : Prop := p.take 8 = q.take 8 ∧ p.drop 12 = q.drop 12

theorem take_packet (id : UInt32) (c : Call) :
    ((c.packet .little id).bytes .little).take 8 = startOfCmd ++ leBytes 4 c.cmdSize := by
  rw [packet_eq]
  apply List.take_left'
  rw [List.length_append, length_leBytes]
  rfl

theorem drop_packet (id : UInt32) (c : Call) :
    ((c.packet .little id).bytes .little).drop 12 =
      leBytes 4 c.key.toNat ++ (leBytes 4 c.op.toNat ++ c.args .little) := by
  have h12 : (startOfCmd ++ leBytes 4 c.cmdSize ++ leBytes 4 id.toNat).length = 12 := by
    rw [List.length_append, List.length_append, length_leBytes, length_leBytes]
    rfl
  rw [packet_eq, List.append_assoc (leBytes 4 id.toNat), List.append_assoc (leBytes 4 id.toNat),
    ← List.append_assoc _ (leBytes 4 id.toNat), List.drop_left' h12, List.append_assoc]

theorem sameButMsgId_packet (id id' : UInt32) (c : Call) :
    SameButMsgId ((c.packet .little id).bytes .little) ((c.packet .little id').bytes .little) := by
  constructor
  · rw [take_packet, take_packet]
  · rw [drop_packet, drop_packet]

theorem pack_bit (bit : Int32) :
    pack [.int bit.toInt] [.i_] = .ok (NativeRep.bytes .little bit) := by
  rw [← ofInt_toInt]
  simp [pack, Directive.pack, bind, Except.bind, pure, Except.pure]

theorem pack_bit_flag (bit : Int32) {n : Int} {b : Bool} (h : (Val.int n).flag = some b) :
    pack [.int bit.toInt, .int n] [.i_, .C] =
      .ok (NativeRep.bytes .little bit ++ NativeRep.bytes .little b) := by
  have hn : Directive.ofInt 1 n = NativeRep.bytes .little b := by
    unfold Val.flag at h
    split at h
    · next hv => cases hv
    · next hv => cases hv
    · next hv =>
      cases hv
      cases h
      rfl
    · next hv =>
      cases hv
      cases h
      rfl
    · cases h
    · cases h
  rw [← ofInt_toInt, ← hn]
  simp [pack, Directive.pack, bind, Except.bind, pure, Except.pure]

/-- The request that `set` makes of a number. -/
theorem request_set (bit : Int32) {n : Int} {b : Bool} (h : (Val.int n).flag = some b) :
    request DigOut.tgtClass 1 [.int bit.toInt, .int n] [.i_, .C] =
      .ok (((Call.outSet 0 bit b).packet .little 0).bytes .little) :=
  request_eq_packet (pack_bit_flag bit h) rfl rfl

namespace PortCall

/-- What the Ruby stub needs: it sends no bit for a value, and flags are numbers to it. -/
def Sound (c : PortCall) (args : List Val) : Prop :=
  (∀ bit, c ≠ inValue bit) ∧ ∀ v, args[1]? = some v → ∃ n, v = .int n

theorem ruby_of_sound {c : PortCall} {args : List Val} (hs : c.Spelled args)
    (h : c.Sound args) :
    c.ruby args = .ok ((c.call.packet .little 0).bytes .little) := by
  cases c with
  | inWidth =>
    cases hs
    exact request_eq_packet rfl rfl rfl
  | inValue bit => exact absurd rfl (h.1 bit)
  | outWidth =>
    cases hs
    exact request_eq_packet rfl rfl rfl
  | outSet bit b =>
    rcases hs with ⟨v, rfl, hv⟩
    rcases h.2 v rfl with ⟨n, rfl⟩
    have hset : DigOutStub.set [.int bit.toInt, .int n] =
        request DigOut.tgtClass 1 [.int bit.toInt, .int n] [.i_, .C] := rfl
    exact hset.trans (request_set bit hv)
  | outSetBit bit =>
    cases hs
    have hset : DigOutStub.set [.int bit.toInt] =
        request DigOut.tgtClass 1 [.int bit.toInt, .int 1] [.i_, .C] := rfl
    exact hset.trans (request_set bit rfl)
  | outClear bit =>
    cases hs
    exact request_eq_packet (c := .outClear 0 bit) (pack_bit bit) rfl rfl
  | outToggle bit =>
    cases hs
    exact request_eq_packet (c := .outToggle 0 bit) (pack_bit bit) rfl rfl

end PortCall

/-! ### The C++ stubs -/

/-- A client end as its stubs use it. -/
def clientSrvr {σ : Type} (e : Endian) : ObjSrvr (DistObjSrvr σ) where
  nextMsgId := DistObjSrvr.nextMsgId
  send msgType packet rsp d := DistObjSrvr.send e d msgType packet rsp

/-- On a port that takes everything a stub sends the packet of its call. -/
theorem sent_perform {σ : Type} {e : Endian} {d : DistObjSrvr σ} (hl : d.port.Lossless) (k : Stack)
    (c : Call) :
    (c.perform e (clientSrvr e) k d).2.port.sent =
      d.port.sent ++ (c.packet e d.msgId).bytes e := by
  rcases request_spec e (clientSrvr e) k c d with ⟨b, hv, hu, hr⟩
  have hlen : b.unread.length < 2 ^ 31 := by
    have hp := length_packet e ((clientSrvr e).nextMsgId d).1 c
    rw [hu, hp]
    exact Nat.lt_of_le_of_lt c.cmdSize_bounds.2 (by decide)
  rcases DistObjSrvr.sendCmd_spec (e := e) (d := d.nextMsgId.2) hl hv hlen msgTypeCmd with
    ⟨b', p, hs, -, hw⟩
  have hsend : (DistObjSrvr.send e d.nextMsgId.2 msgTypeCmd b (.fixed k.rsp)).2.2.2 =
      (DistObjSrvr.recvRsp e { d.nextMsgId.2 with port := p } (.fixed k.rsp)).2.2 := by
    rw [DistObjSrvr.send, hs]
    rfl
  rw [Call.perform_eq, hr]
  show (DistObjSrvr.send e d.nextMsgId.2 msgTypeCmd b (.fixed k.rsp)).2.2.2.port.sent = _
  rw [hsend, DistObjSrvr.sent_recvRsp, hw.sent, hu]
  rfl

namespace PortCall

theorem cpp_eq {ω : Type} (e : Endian) (srvr : ObjSrvr ω) (k : Stack) (c : PortCall) (w : ω) :
    c.cpp e srvr k w = (c.call.perform e srvr k w).2 := by
  cases c <;> rfl

/-- A packet is what the C++ stub writes for the call, but for the message id. -/
def Matches (c : PortCall) (pkt : List UInt8) : Prop :=
  ∀ (d : DistObjSrvr Unit) (k : Stack), d.port.Lossless →
    ∃ sent, (c.cpp .little (clientSrvr .little) k d).port.sent = d.port.sent ++ sent ∧
      SameButMsgId pkt sent

/-- A server to which a packet comes makes the call on the port behind its object. -/
def Invokes (c : PortCall) (pkt : List UInt8) : Prop :=
  ∀ (τ : Type) (junk : Int32) (impl : Impl τ) (s : Run (World τ)) (a : Entry),
    s.Active → s.srvr.port.stops = [] → s.srvr.port.Lossless → a.quit = false →
    s.srvr.port.pending = pkt → c.call.cmdSize ≤ s.srvr.cmdBuf.capacity →
    c.call.rspSize ≤ s.srvr.rspBuf.capacity →
    s.srvr.objReg.getObj c.call.key = some (c.call.obj .little junk impl) →
    (s.pass .little a).objs = s.objs.record c.call (impl.apply c.call s.objs.state).2

/-- The Ruby stub says what the C++ stub says, and the server does as it is told. -/
def Agrees (c : PortCall) (args : List Val) : Prop :=
  ∃ pkt, c.ruby args = .ok pkt ∧ c.Matches pkt ∧ c.Invokes pkt

theorem matches_packet (c : PortCall) :
    c.Matches ((c.call.packet .little 0).bytes .little) := by
  intro d k hl
  refine ⟨(c.call.packet .little d.msgId).bytes .little, ?_, sameButMsgId_packet _ _ _⟩
  rw [cpp_eq, sent_perform hl]

theorem invokes_packet (c : PortCall) :
    c.Invokes ((c.call.packet .little 0).bytes .little) := by
  intro τ junk impl s a hs hstop hl ha hp hcmd hrsp hobj
  exact (Run.pass_answered hs hstop hl ha hp hcmd hrsp hobj).objs

theorem agrees_of_sound {c : PortCall} {args : List Val} (hs : c.Spelled args)
    (h : c.Sound args) : c.Agrees args :=
  ⟨_, ruby_of_sound hs h, c.matches_packet, c.invokes_packet⟩

/-- A packet that matches has the key, the operation and the parameters of the call. -/
theorem Matches.drop_eq {c : PortCall} {pkt : List UInt8} (h : c.Matches pkt) :
    pkt.drop 12 = leBytes 4 c.call.key.toNat ++
      (leBytes 4 c.call.op.toNat ++ c.call.args .little) := by
  let d : DistObjSrvr Unit := .create ⟨[], [], [], 0⟩ [] [] []
  have hl : d.port.Lossless := fun r hr ↦ absurd hr List.not_mem_nil
  let k : Stack :=
    ⟨List.replicate 256 0, List.replicate 256 0, List.length_replicate, List.length_replicate⟩
  rcases h d k hl with ⟨sent, hs, -, hd⟩
  rw [cpp_eq, sent_perform hl, List.append_cancel_left_eq] at hs
  rw [hd, ← hs, drop_packet]

/-- The stub of a value writes too little, and takes no bit. -/
theorem not_matches_value {bit : Int32} {args : List Val} (hs : (inValue bit).Spelled args)
    {pkt : List UInt8} (hp : (inValue bit).ruby args = .ok pkt) : ¬ (inValue bit).Matches pkt := by
  intro hm
  rcases hs with rfl | rfl
  · have hr : DigInStub.value [] = .ok _ := request_eq rfl
    cases hr.symm.trans hp
    have hl := congrArg List.length hm.drop_eq
    have h4 : (NativeRep.bytes .little bit).length = 4 := NativeRep.length_bytes _ bit
    simp [startOfCmd, Directive.ofInt, call, Call.args, h4] at hl
  · cases hp

/-- A flag that is low but no number is sent as high. -/
theorem not_matches_low {bit : Int32} {v : Val} (hv : v.orElse (.int 1) = .int 1)
    {pkt : List UInt8} (hp : DigOutStub.set [.int bit.toInt, v] = .ok pkt) :
    ¬ (outSet bit false).Matches pkt := by
  intro hm
  have hset : DigOutStub.set [.int bit.toInt, v] =
      request DigOut.tgtClass 1 [.int bit.toInt, .int 1] [.i_, .C] := by
    show (do
      let on ← (v.orElse (.int 1)).toInt
      request DigOut.tgtClass 1 [.int bit.toInt, .int on] [.i_, .C]) = _
    rw [hv]
    rfl
  have hone : (Val.int 1).flag = some true := rfl
  rw [hset, request_set bit hone] at hp
  have hpkt := Except.ok.inj hp
  have hd := hm.drop_eq
  have hkey : (outSet bit false).call.key = (Call.outSet 0 bit true).key := rfl
  have hop : (outSet bit false).call.op = (Call.outSet 0 bit true).op := rfl
  rw [← hpkt, drop_packet, hkey, hop, List.append_cancel_left_eq, List.append_cancel_left_eq] at hd
  have hargs : NativeRep.bytes .little bit ++ [(1 : UInt8)] = NativeRep.bytes .little bit ++ [0] :=
    hd
  rw [List.append_cancel_left_eq] at hargs
  exact absurd hargs (by decide)

theorem sound_of_agrees {c : PortCall} {args : List Val} (hs : c.Spelled args)
    (h : c.Agrees args) : c.Sound args := by
  rcases h with ⟨pkt, hp, hm, -⟩
  constructor
  · rintro bit rfl
    exact not_matches_value hs hp hm
  · intro v hv
    cases c with
    | outSet bit b =>
      rcases hs with ⟨w, rfl, hw⟩
      cases hv
      cases v with
      | nil =>
        cases hw
        exact absurd hm (not_matches_low rfl hp)
      | bool b' =>
        cases b' with
        | true => cases hp
        | false =>
          cases hw
          exact absurd hm (not_matches_low rfl hp)
      | int n => exact ⟨n, rfl⟩
      | str bs => cases hw
    | inValue bit => rcases hs with rfl | rfl <;> cases hv
    | _ =>
      cases hs
      cases hv

/-- The Ruby stub of a call writes the packet of the C++ stub, and the server makes the call,
exactly if the call is no `value` and its flag, where it has one, is a number. -/
theorem ruby_agrees_iff {c : PortCall} {args : List Val} (hs : c.Spelled args) :
    c.Agrees args ↔ c.Sound args :=
  ⟨sound_of_agrees hs, agrees_of_sound hs⟩

/-- A bit is set low by the number 0. -/
theorem ruby_agrees_low : (outSet 5 false).Agrees [.int 5, .int 0] := by
  have hs : (outSet 5 false).Spelled [.int 5, .int 0] := ⟨.int 0, rfl, rfl⟩
  have h : (outSet 5 false).Sound [.int 5, .int 0] := by
    constructor
    · intro bit hc
      cases hc
    · intro v hv
      exact ⟨0, (Option.some.inj hv).symm⟩
  exact (ruby_agrees_iff hs).mpr h

/-- The value of bit 3 cannot be asked for, and `set` with `false` sets the bit high. -/
theorem ruby_not_agrees :
    (¬ (inValue 3).Agrees [] ∧ ¬ (inValue 3).Agrees [.int 3]) ∧
      ¬ (outSet 5 false).Agrees [.int 5, .bool false] := by
  refine ⟨⟨?_, ?_⟩, ?_⟩
  · rintro ⟨pkt, hp, hm, -⟩
    exact not_matches_value (.inl rfl) hp hm
  · rintro ⟨pkt, hp, hm, -⟩
    exact not_matches_value (.inr rfl) hp hm
  · rintro ⟨pkt, hp, hm, -⟩
    exact @not_matches_low 5 _ rfl pkt hp hm

end PortCall

end CtrlrFx.Host
