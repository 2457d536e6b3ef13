import CtrlrFx.Data.BufCodec

/-!
# Distributed objects and their registry

`CtrlrFx/DistObj.h` and `src/DistObj/DistObj.cpp`: an object answers operations whose
parameters it decodes and whose results it encodes; the registry is a table of objects by
key, used up to its first empty entry.
-/

namespace CtrlrFx.DistObj
open Data

/-- Outcome of an invocation: the result, the two codecs, and the objects' own state. -/
structure Reply (σ : Type) where
  ret : Int32
  param : BufCodec
  rsp : BufCodec
  objs : σ

/-- An object over the state `σ` of all objects; `CtrlrFx/DistObj.h:34–41`. It gets and puts
through the codecs it is handed and leaves their memory in place. -/
structure IDistObj (σ : Type) where
  invoke : UInt32 → BufCodec → BufCodec → σ → Reply σ
  capacity_param : ∀ op param rsp s,
    (invoke op param rsp s).param.buf.capacity = param.buf.capacity
  capacity_rsp : ∀ op param rsp s, (invoke op param rsp s).rsp.buf.capacity = rsp.buf.capacity

/-- An entry of the table; `CtrlrFx/DistObj.h:53`. -/
structure ObjMap (ο : Type) where
  key : UInt32
  obj : Option ο
  deriving DecidableEq, Repr

/-- The table, of `MAX_NUM_DIST_OBJ` entries; `CtrlrFx/DistObj.h:45–69`. -/
structure DistObjRegistry (ο : Type) where
  objMap : List (ObjMap ο)
  deriving DecidableEq, Repr

namespace DistObjRegistry

variable {ο σ : Type}

/-- An empty registry, on entries that hold anything; `src/DistObj/DistObj.cpp:14–17`. -/
def create (entries : List (ObjMap ο)) : DistObjRegistry ο :=
  { objMap := entries.modify 0 fun m ↦ { m with obj := none } }

/-- Number of entries before the first empty one. -/
def used : List (ObjMap ο) → Nat
  | [] => 0
  | m :: ms => if m.obj.isNone then 0 else used ms + 1

/-- Enters an object behind the others; `src/DistObj/DistObj.cpp:21–39`. -/
def registerObj (r : DistObjRegistry ο) (key : UInt32) (obj : Option ο) :
    Int × DistObjRegistry ο :=
  let i := used r.objMap
  if i = r.objMap.length then (-2, r)
  else
    let objMap := r.objMap.set i { key, obj }
    if i + 1 < r.objMap.length then
      (i + 1, { objMap := objMap.modify (i + 1) fun m ↦ { m with obj := none } })
    else (i, { objMap })

/-- First object of the key before the first empty entry. The loop of the source looks at the
entry behind a full table too, but leaves the table there whatever it finds. -/
def lookup (key : UInt32) : List (ObjMap ο) → Option ο
  | [] => none
  | m :: ms => m.obj.bind fun o ↦ if m.key = key then some o else lookup key ms

/-- The object of a key; `src/DistObj/DistObj.cpp:43–66`. -/
def getObj (r : DistObjRegistry ο) (key : UInt32) : Option ο := lookup key r.objMap

/-- Invokes the object of a key; `src/DistObj/DistObj.cpp:77–82`. -/
def dispatch (r : DistObjRegistry (IDistObj σ)) (objKey op : UInt32) (param rsp : BufCodec)
    (s : σ) : Reply σ :=
  match r.getObj objKey with
  | none => { ret := -6, param, rsp, objs := s }
  | some p => p.invoke op param rsp s

theorem capacity_param_dispatch (r : DistObjRegistry (IDistObj σ)) (objKey op : UInt32)
    (param rsp : BufCodec) (s : σ) :
    (r.dispatch objKey op param rsp s).param.buf.capacity = param.buf.capacity := by
  unfold dispatch
  split
  · rfl
  · next p _ => exact p.capacity_param op param rsp s

theorem capacity_rsp_dispatch (r : DistObjRegistry (IDistObj σ)) (objKey op : UInt32)
    (param rsp : BufCodec) (s : σ) :
    (r.dispatch objKey op param rsp s).rsp.buf.capacity = rsp.buf.capacity := by
  unfold dispatch
  split
  · rfl
  · next p _ => exact p.capacity_rsp op param rsp s

end DistObjRegistry
end CtrlrFx.DistObj
