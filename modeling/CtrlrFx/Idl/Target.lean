import CtrlrFx.DistObj.DigIO
import CtrlrFx.Idl.Names
import Mathlib.Logic.Function.Basic

/-!
# What stubs and skeletons do

The statements that `tools/cfxidl/Iface.cpp` writes, as what they do when they run: values are
put into and taken from the codecs of `CtrlrFx/BufCodec.h`, the stub sends the command through
its server, and the handler calls the function of the implementation. Which scalar a type name
stands for is up to the host.
-/

namespace CtrlrFx.Idl
open Base Data DistObj

/-- Types of scalars. -/
inductive ScalarType where
  | u8
  | u16
  | u32
  | u64
  | bool
  deriving DecidableEq, Repr

namespace ScalarType

/-- The value `T(0)`, `T()` or `false`, which a stub returns where there is no reply. -/
def zero : ScalarType → Scalar
  | u8 => .u8 0
  | u16 => .u16 0
  | u32 => .u32 0
  | u64 => .u64 0
  | bool => .bool false

def size (t : ScalarType) : Nat := t.zero.size

/-- Values of the type. -/
def Has (t : ScalarType) (v : Scalar) : Prop := Scalar.SameType t.zero v

end ScalarType

/-- What the type names of an interface stand for on a host. -/
abbrev Types := String → Option ScalarType

/-- A value of the type of a name. -/
def Types.Has (types : Types) (T : String) (v : Scalar) : Prop :=
  ∃ t, types T = some t ∧ t.Has v

/-- Bytes that a value takes whose type has the name. -/
def Types.size (types : Types) (T : String) : Nat := ((types T).map ScalarType.size).getD 0

/-- Values of variables, those behind pointers included. -/
abbrev Vars := String → Scalar

/-- Stores values into variables, one after another. -/
def Vars.setAll (ρ : Vars) : List String → List Scalar → Vars
  | x :: xs, v :: vs => setAll (Function.update ρ x v) xs vs
  | _, _ => ρ

/-- What a call returns: the result, if the function has one, what the variables behind its
pointers hold afterwards, and the state. -/
structure Outcome (σ : Type) where
  ret : Option Scalar
  outs : List Scalar
  state : σ

/-- A function of an interface. It gets the values of its parameters, with those of the variables
behind its pointers, which are different variables. -/
abbrev Method (σ : Type) := List Scalar → σ → Outcome σ

/-! ### Operands -/

namespace Decl

/-- The type of the value that a variable is for. -/
def type : Decl → String
  | plain t | constRef t | pointer t => t

def isPointer : Decl → Bool
  | pointer _ => true
  | plain _ | constRef _ => false

@[simp] theorem isPointer_pointer (t : String) : (pointer t).isPointer = true := rfl

@[simp] theorem isPointer_plain (t : String) : (plain t).isPointer = false := rfl

end Decl

namespace Operand

/-- The variable whose scalar an operand stands for, if it is not a pointer. -/
def scalar (o : Operand) : Option String :=
  match o.value with
  | some (x, d) => if d.isPointer then none else some x
  | none => none

end Operand

/-- Variables of operands that are all scalars. -/
def scalars (ops : List Operand) : Option (List String) := ops.mapM Operand.scalar

/-! ### Stubs -/

/-- Class number of a generated interface; `tools/cfxidl/Iface.cpp:68`. -/
def OBJ_CLASS : UInt16 := 0

/-- A stub as it runs, with `ret` for the type of its result and `junk` for what the memory of
`_ret` holds. Without statements for a reply the result of `send` is not looked at;
`tools/cfxidl/Iface.cpp:177–246`. -/
def Stub.run {ω : Type} (e : Endian) (srvr : ObjSrvr ω) (k : Stack) (junk : Scalar)
    (op : UInt32) (ins : List String) (outs : Option (List String)) (ret : Option ScalarType)
    (ρ : Vars) (w : ω) : Option Scalar × Vars × ω :=
  let h := putCmdHdr e srvr (tgtObj OBJ_CLASS 0) { buf := .fixed k.cmd, good := true } op w
  let cmdEnc := Scalar.putAll e h.1 (ins.map ρ)
  let n := srvr.send msgTypeCmd cmdEnc.buf.flip (.fixed k.rsp) h.2
  match outs with
  | none => (none, ρ, n.2.2.2)
  | some xs =>
    if n.1 < 0 then (ret.map ScalarType.zero, ρ, n.2.2.2)
    else
      let ρ : Vars := Function.update ρ "_ret" junk
      let rspDec := Scalar.getAll e { buf := n.2.2.1, good := true } (xs.map ρ)
      let ρ := ρ.setAll xs rspDec.2.1
      (ret.map fun t ↦ if rspDec.2.2.good then ρ "_ret" else t.zero, ρ, n.2.2.2)

namespace Func

/-- Names of the parameters that are pointers. -/
def pointers (f : Func) : List String :=
  (f.params.filter fun p ↦ p.dir = .OUT ∨ p.dir = .INOUT).map fun p ↦ p.name

/-- The type of the result, if there is one. -/
def retType (types : Types) (f : Func) : Option ScalarType :=
  if f.type = "void" then none else types f.type

end Func

/-- The stub of a function of an interface, where the compiler for C++ takes it and nothing hides
the constant of the function. What `junk` holds for a name that is no parameter's is not used. -/
def Iface.stub {ω : Type} (e : Endian) (types : Types) (i : Iface) (f : Func)
    (srvr : ObjSrvr ω) (k : Stack) (junk : Vars) : Option (Method ω) :=
  let st := f.createStub
  match i.sent f, scalars (st.encode.getD []), st.decode with
  | some op, some ins, none =>
    some fun args w ↦
      let r := Stub.run e srvr k (junk "_ret") (UInt32.ofNat op) ins none (f.retType types)
        (junk.setAll (f.params.map (·.name)) args) w
      { ret := r.1, outs := f.pointers.map r.2.1, state := r.2.2 }
  | some op, some ins, some ops =>
    (scalars ops).map fun outs args w ↦
      let r := Stub.run e srvr k (junk "_ret") (UInt32.ofNat op) ins (some outs)
        (f.retType types) (junk.setAll (f.params.map (·.name)) args) w
      { ret := r.1, outs := f.pointers.map r.2.1, state := r.2.2 }
  | _, _, _ => none

/-! ### Handlers -/

/-- A handler as it runs, with `junk` for what the memory of its variables holds;
`tools/cfxidl/Iface.cpp:356–409`. -/
def Handler.run {σ : Type} (e : Endian) (junk : Vars) (m : Method σ) (ins : List String)
    (call : List (String × Decl)) (ret : Option Var) (outs : List String) :
    DistObj.Handler σ := fun param rsp s ↦
  let d := Scalar.getAll e param (ins.map junk)
  let ρ := junk.setAll ins d.2.1
  let c := m (call.map fun x ↦ ρ x.1) s
  let ρ := ρ.setAll ((call.filter fun x ↦ x.2.isPointer).map Prod.fst) c.outs
  let ρ := ρ.setAll (ret.map Var.name).toList c.ret.toList
  { ret := 0, param := d.2.2, rsp := Scalar.putAll e rsp (outs.map ρ), objs := c.state }

/-- The handler, where the compiler for C++ takes it. -/
def Handler.compile {σ : Type} (e : Endian) (junk : Vars) (m : Method σ) (h : Handler) :
    Option (DistObj.Handler σ) :=
  match scalars (h.decode.getD []), values h.call, scalars (h.encode.getD []) with
  | some ins, some call, some outs => some (Handler.run e junk m ins call h.ret outs)
  | _, _, _ => none

/-- A handler leaves the buffers the size they have. -/
theorem Handler.steady_run {σ : Type} (e : Endian) (junk : Vars) (m : Method σ)
    (ins : List String) (call : List (String × Decl)) (ret : Option Var) (outs : List String) :
    (Handler.run e junk m ins call ret outs).Steady := by
  have hget (vs : List Scalar) (c : BufCodec) :
      (Scalar.getAll e c vs).2.2.buf.capacity = c.buf.capacity := by
    induction vs generalizing c with
    | nil => rfl
    | cons v vs ih =>
      rw [Scalar.getAll]
      refine (ih _).trans ?_
      cases v with
      | u8 v => exact BufCodec.capacity_get e c v
      | u16 v => exact BufCodec.capacity_get e c v
      | u32 v => exact BufCodec.capacity_get e c v
      | u64 v => exact BufCodec.capacity_get e c v
      | bool v => exact BufCodec.capacity_get e c (0 : UInt8)
  have hput (vs : List Scalar) (c : BufCodec) :
      (Scalar.putAll e c vs).buf.capacity = c.buf.capacity := by
    induction vs generalizing c with
    | nil => rfl
    | cons v vs ih =>
      rw [Scalar.putAll]
      refine (ih _).trans ?_
      rw [Scalar.put_eq]
      exact BufCodec.capacity_putRaw c _ _
  exact ⟨fun param _ _ ↦ hget _ param, fun _ rsp _ ↦ hput _ rsp⟩

/-- The handlers that are invoked for an operation; `tools/cfxidl/Iface.cpp:413–417`. The
handler of a function calls that function of the implementation. -/
def Iface.invokeCmd {σ : Type} (e : Endian) (junk : Vars) (i : Iface) (impl : Func → Method σ)
    (op : UInt32) : Option (DistObj.Handler σ) :=
  match i.invoke op.toNat with
  | some (.handled h) =>
    match i.funcs.find? fun f ↦ f.cmdFuncName == h.name with
    | some f => h.compile e junk (impl f)
    | none => none
  | _ => none

theorem Iface.steady_invokeCmd {σ : Type} {e : Endian} {junk : Vars} {i : Iface}
    {impl : Func → Method σ} {op : UInt32} {p : DistObj.Handler σ}
    (h : i.invokeCmd e junk impl op = some p) : p.Steady := by
  unfold invokeCmd at h
  split at h
  · next hd _ =>
    split at h
    · unfold Handler.compile at h
      split at h
      · rw [← Option.some.inj h]
        exact Handler.steady_run e junk _ _ _ _ _
      · cases h
    · cases h
  · cases h

/-- The skeleton as an object, with the implementation behind it. Operations that it has no
handler for are refused. -/
def Iface.skel {σ : Type} (e : Endian) (junk : Vars) (i : Iface) (impl : Func → Method σ) :
    IDistObj σ where
  invoke op param rsp s :=
    match i.invokeCmd e junk impl op with
    | some p => p param rsp s
    | none => { ret := -1, param, rsp, objs := s }
  capacity_param op param rsp s := by
    cases h : i.invokeCmd e junk impl op with
    | none => rfl
    | some p => exact (Iface.steady_invokeCmd h).param param rsp s
  capacity_rsp op param rsp s := by
    cases h : i.invokeCmd e junk impl op with
    | none => rfl
    | some p => exact (Iface.steady_invokeCmd h).rsp param rsp s

end CtrlrFx.Idl
