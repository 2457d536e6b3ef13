import CtrlrFx.DistObj.Srvr

/-!
# Remote digital ports

`src/DistObj/DigIO_skel.cpp` and `src/DistObj/DigIO_stub.cpp`: the skeletons through which a
server invokes the methods of a digital port, and the stubs through which a client calls them.
-/

namespace CtrlrFx.DistObj
open Base Data

/-- A digital input port over a state `τ`; `CtrlrFx/DigIO.h:13–25`. -/
structure DigIn (τ : Type) where
  width : τ → Int32 × τ
  value : Int32 → τ → Bool × τ

/-- A digital output port over a state `τ`; `CtrlrFx/DigIO.h:31–52`. -/
structure DigOut (τ : Type) where
  width : τ → Int32 × τ
  set : Int32 → Bool → τ → τ
  clear : Int32 → τ → τ
  toggle : Int32 → τ → τ

/-- Commands of input ports; `CtrlrFx/DigIO.h:15`. -/
inductive DigInCmd where
  | width
  | value
  deriving DecidableEq, Repr

/-- Commands of output ports; `CtrlrFx/DigIO.h:33`. -/
inductive DigOutCmd where
  | width
  | set
  | clear
  | toggle
  deriving DecidableEq, Repr

namespace DigInCmd

def op : DigInCmd → UInt32
  | width => 0
  | value => 1

end DigInCmd

namespace DigOutCmd

def op : DigOutCmd → UInt32
  | width => 0
  | set => 1
  | clear => 2
  | toggle => 3

end DigOutCmd

/-- Class of input ports; `CtrlrFx/BinDistObj.h:23`. -/
def classDigIn : UInt16 := 1

/-- Class of output ports; `CtrlrFx/BinDistObj.h:24`. -/
def classDigOut : UInt16 := 2

/-- Key of an object; `CtrlrFx/BinDistObj.h:27–30`. -/
def tgtObj (objClass objInst : UInt16) : UInt32 := objClass.toUInt32 <<< 16 ||| objInst.toUInt32

/-! ### Skeletons -/

/-- A command handler of a skeleton. -/
abbrev Handler (τ : Type) := BufCodec → BufCodec → τ → Reply τ

/-- The handler of an operation in a table; `src/DistObj/DigIO_skel.cpp:29–40,95–106`. -/
def getMbrPtr {τ : Type} (methodMap : List (UInt32 × Handler τ)) (op : UInt32) :
    Option (Handler τ) :=
  (methodMap.find? fun m ↦ m.1 == op).map Prod.snd

/-- A table's handler invoked, or `code` where the table has none;
`src/DistObj/DigIO_skel.cpp:44–50,110–117`. -/
def invokeMbr {τ : Type} (methodMap : List (UInt32 × Handler τ)) (code : Int32) (op : UInt32) :
    Handler τ := fun param rsp s ↦
  match getMbrPtr methodMap op with
  | none => { ret := code, param, rsp, objs := s }
  | some p => p param rsp s

namespace DigInSkel

variable {τ : Type} (e : Endian) (junk : Int32) (impl : DigIn τ)

/-- `src/DistObj/DigIO_skel.cpp:56–63`. -/
def widthCmd : Handler τ := fun param rsp s ↦
  let wd := impl.width s
  { ret := 0, param, rsp := (rsp.put e wd.1.toUInt32).2, objs := wd.2 }

/-- `junk` is what `bit` holds before it is read; `src/DistObj/DigIO_skel.cpp:68–78`. -/
def valueCmd : Handler τ := fun param rsp s ↦
  let bit := param.get e junk
  let b := impl.value bit.2.1 s
  { ret := 0, param := bit.2.2, rsp := (rsp.putBool e b.1).2, objs := b.2 }

/-- `src/DistObj/DigIO_skel.cpp:20–25`. -/
def methodMap : List (UInt32 × Handler τ) :=
  [(DigInCmd.width.op, widthCmd e impl), (DigInCmd.value.op, valueCmd e junk impl)]

end DigInSkel

namespace DigOutSkel

variable {τ : Type} (e : Endian) (junk : Int32) (impl : DigOut τ)

/-- `src/DistObj/DigIO_skel.cpp:123–130`. -/
def widthCmd : Handler τ := fun param rsp s ↦
  let wd := impl.width s
  { ret := 0, param, rsp := (rsp.put e wd.1.toUInt32).2, objs := wd.2 }

/-- The second parameter may be left out; `src/DistObj/DigIO_skel.cpp:134–146`. -/
def setCmd : Handler τ := fun param rsp s ↦
  let bit := param.get e junk
  let b := bit.2.2.get e true
  { ret := 0, param := b.2.2, rsp, objs := impl.set bit.2.1 b.2.1 s }

/-- `src/DistObj/DigIO_skel.cpp:150–159`. -/
def clearCmd : Handler τ := fun param rsp s ↦
  let bit := param.get e junk
  { ret := 0, param := bit.2.2, rsp, objs := impl.clear bit.2.1 s }

/-- `src/DistObj/DigIO_skel.cpp:163–172`. -/
def toggleCmd : Handler τ := fun param rsp s ↦
  let bit := param.get e junk
  { ret := 0, param := bit.2.2, rsp, objs := impl.toggle bit.2.1 s }

/-- `src/DistObj/DigIO_skel.cpp:84–91`. -/
def methodMap : List (UInt32 × Handler τ) :=
  [(DigOutCmd.width.op, widthCmd e impl), (DigOutCmd.set.op, setCmd e junk impl),
    (DigOutCmd.clear.op, clearCmd e junk impl), (DigOutCmd.toggle.op, toggleCmd e junk impl)]

end DigOutSkel

/-- A handler that leaves the buffers the size they have. -/
structure Handler.Steady {τ : Type} (h : Handler τ) : Prop where
  param : ∀ param rsp s, (h param rsp s).param.buf.capacity = param.buf.capacity
  rsp : ∀ param rsp s, (h param rsp s).rsp.buf.capacity = rsp.buf.capacity

theorem steady_invokeMbr {τ : Type} {methodMap : List (UInt32 × Handler τ)}
    (h : ∀ m ∈ methodMap, m.2.Steady) (code : Int32) (op : UInt32) :
    (invokeMbr methodMap code op).Steady := by
  cases hp : methodMap.find? fun m ↦ m.1 == op with
  | none =>
    have hi : invokeMbr methodMap code op = fun param rsp s ↦ ⟨code, param, rsp, s⟩ := by
      funext param rsp s
      rw [invokeMbr, getMbrPtr, hp]
      rfl
    rw [hi]
    exact ⟨fun _ _ _ ↦ rfl, fun _ _ _ ↦ rfl⟩
  | some m =>
    have hi : invokeMbr methodMap code op = m.2 := by
      funext param rsp s
      rw [invokeMbr, getMbrPtr, hp]
      rfl
    rw [hi]
    exact h m (List.mem_of_find?_eq_some hp)

/-- An input port as an object; its handlers are called for their operations, and for any
other the result is −1. -/
def DigInSkel.obj {τ : Type} (e : Endian) (junk : Int32) (impl : DigIn τ) : IDistObj τ :=
  have h : ∀ m ∈ DigInSkel.methodMap e junk impl, m.2.Steady := by
    simp only [methodMap, List.forall_mem_cons, List.not_mem_nil, false_imp_iff, implies_true,
      and_true]
    exact ⟨⟨fun _ _ _ ↦ rfl, fun _ rsp s ↦ BufCodec.capacity_put e rsp (impl.width s).1.toUInt32⟩,
      ⟨fun param _ _ ↦ BufCodec.capacity_get e param junk,
        fun _ rsp _ ↦ BufCodec.capacity_put e rsp (_ : UInt8)⟩⟩
  { invoke := invokeMbr (methodMap e junk impl) (-1)
    capacity_param := fun op ↦ (steady_invokeMbr h (-1) op).param
    capacity_rsp := fun op ↦ (steady_invokeMbr h (-1) op).rsp }

/-- An output port as an object; for any other operation the result is −7. -/
def DigOutSkel.obj {τ : Type} (e : Endian) (junk : Int32) (impl : DigOut τ) : IDistObj τ :=
  have h : ∀ m ∈ DigOutSkel.methodMap e junk impl, m.2.Steady := by
    simp only [methodMap, List.forall_mem_cons, List.not_mem_nil, false_imp_iff, implies_true,
      and_true]
    exact ⟨⟨fun _ _ _ ↦ rfl, fun _ rsp s ↦ BufCodec.capacity_put e rsp (impl.width s).1.toUInt32⟩,
      ⟨fun param _ _ ↦ (BufCodec.capacity_get e (param.get e junk).2.2 true).trans
        (BufCodec.capacity_get e param junk), fun _ _ _ ↦ rfl⟩,
      ⟨fun param _ _ ↦ BufCodec.capacity_get e param junk, fun _ _ _ ↦ rfl⟩,
      ⟨fun param _ _ ↦ BufCodec.capacity_get e param junk, fun _ _ _ ↦ rfl⟩⟩
  { invoke := invokeMbr (methodMap e junk impl) (-7)
    capacity_param := fun op ↦ (steady_invokeMbr h (-7) op).param
    capacity_rsp := fun op ↦ (steady_invokeMbr h (-7) op).rsp }

/-! ### Stubs -/

/-- What a stub uses of its server, over the state `ω` of all that takes part. -/
structure ObjSrvr (ω : Type) where
  nextMsgId : ω → UInt32 × ω
  send : UInt8 → Buffer UInt8 → Buffer UInt8 → ω → Int32 × Buffer UInt8 × Buffer UInt8 × ω

/-- What the memory of a stub's two buffers holds before it is written. -/
structure Stack where
  cmd : List UInt8
  rsp : List UInt8
  length_cmd : cmd.length = 256
  length_rsp : rsp.length = 256

section Stubs

variable {ω : Type} (e : Endian) (srvr : ObjSrvr ω) (tgt : UInt32) (k : Stack)

/-- Encodes the header of a command; `src/DistObj/DigIO_stub.cpp:87–92`. -/
def putCmdHdr (enc : BufCodec) (cmd : UInt32) (w : ω) : BufCodec × ω :=
  let m := srvr.nextMsgId w
  ((((enc.put e m.1).2.put e tgt).2.put e cmd).2, m.2)

/-- Encodes a command with its parameters and sends it, as every stub does; those of input
ports put the header themselves. -/
def request (cmd : UInt32) (put : BufCodec → BufCodec) (w : ω) : Int32 × Buffer UInt8 × ω :=
  let h := putCmdHdr e srvr tgt { buf := .fixed k.cmd, good := true } cmd w
  let r := srvr.send msgTypeCmd (put h.1).buf.flip (.fixed k.rsp) h.2
  (r.1, r.2.2)

/-- `src/DistObj/DigIO_stub.cpp:27–44`. -/
def DigInStub.width (w : ω) : Int32 × ω :=
  let r := request e srvr tgt k DigInCmd.width.op id w
  if r.1 ≠ 0 then (0, r.2.2)
  else ((BufCodec.get e { buf := r.2.1, good := true } (0 : Int32)).2.1, r.2.2)

/-- `src/DistObj/DigIO_stub.cpp:49–68`. -/
def DigInStub.value (bit : Int32) (w : ω) : Bool × ω :=
  let r := request e srvr tgt k DigInCmd.value.op (fun enc ↦ (enc.put e bit.toUInt32).2) w
  if r.1 ≠ 0 then (false, r.2.2)
  else ((BufCodec.get e { buf := r.2.1, good := true } false).2.1, r.2.2)

/-- `src/DistObj/DigIO_stub.cpp:97–112`. -/
def DigOutStub.width (w : ω) : Int32 × ω :=
  let r := request e srvr tgt k DigOutCmd.width.op id w
  if r.1 ≠ 0 then (0, r.2.2)
  else ((BufCodec.get e { buf := r.2.1, good := true } (0 : Int32)).2.1, r.2.2)

/-- `src/DistObj/DigIO_stub.cpp:117–127`. -/
def DigOutStub.set (bit : Int32) (b : Bool) (w : ω) : ω :=
  (request e srvr tgt k DigOutCmd.set.op
    (fun enc ↦ ((enc.put e bit).2.putBool e b).2) w).2.2

/-- `CtrlrFx/DigIO_stub.h:58`. -/
def DigOutStub.setBit (bit : Int32) (w : ω) : ω := DigOutStub.set e srvr tgt k bit true w

/-- `src/DistObj/DigIO_stub.cpp:132–141`. -/
def DigOutStub.clear (bit : Int32) (w : ω) : ω :=
  (request e srvr tgt k DigOutCmd.clear.op (fun enc ↦ (enc.put e bit).2) w).2.2

/-- `src/DistObj/DigIO_stub.cpp:146–155`. -/
def DigOutStub.toggle (bit : Int32) (w : ω) : ω :=
  (request e srvr tgt k DigOutCmd.toggle.op (fun enc ↦ (enc.put e bit).2) w).2.2

end Stubs
end CtrlrFx.DistObj
