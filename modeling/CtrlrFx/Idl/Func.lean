import Mathlib.Data.List.Basic

/-!
# Functions of an interface

`tools/cfxidl/cfxidl.h`, `Func.h` and `Func.cpp`: what the interface compiler knows about a
function, and the C++ declarations it writes for its parameters.
-/

namespace CtrlrFx.Idl

/-- Direction of a parameter; `tools/cfxidl/cfxidl_def.h:4`. -/
inductive Dir where
  | IN
  | OUT
  | INOUT
  deriving DecidableEq, Repr

/-- `tools/cfxidl/cfxidl.h:46–50`. -/
structure Value where
  type : String
  name : String
  deriving DecidableEq, Repr

/-- `tools/cfxidl/cfxidl.cpp:17–24`. -/
def primList : List String :=
  ["char", "byte", "int8", "int8_t", "uint8", "uint8_t", "short", "int16", "int16_t", "uint16",
    "uint16_t", "int", "int32", "int32_t", "uint32", "uint32_t", "long", "int64", "int64_t",
    "uint64", "uint64_t", "float", "double"]

namespace Value

/-- `tools/cfxidl/cfxidl.h:59`. -/
def isPrimitive (v : Value) : Bool := primList.contains v.type

/-- `tools/cfxidl/cfxidl.cpp:47–63`. -/
def errVal (v : Value) : String :=
  if v.type = "void" then ""
  else if v.type = "bool" then "false"
  else if v.isPrimitive then v.type ++ "(0)"
  else v.type ++ "()"

end Value

/-- `tools/cfxidl/Func.h:13–15`. -/
structure Param extends Value where
  dir : Dir
  deriving DecidableEq, Repr

/-- `tools/cfxidl/Func.h:37–39`. -/
structure Func extends Value where
  params : List Param
  deriving DecidableEq, Repr

/-- How a variable is declared in the C++ that is written: `T x`, `const T& x` or `T* x`. -/
inductive Decl where
  | plain (type : String)
  | constRef (type : String)
  | pointer (type : String)
  deriving DecidableEq, Repr

/-- A declared variable. -/
structure Var where
  decl : Decl
  name : String
  deriving DecidableEq, Repr

/-- An operand that is written for a variable: `x`, `*x` or `&x`. -/
inductive Operand where
  | of (x : Var)
  | deref (x : Var)
  | addrOf (x : Var)
  deriving DecidableEq, Repr

namespace Operand

/-- The variable whose value an operand stands for, with the type of the operand, which is given
as the declaration of a variable of this type; there is none for an operand that C++ does not
allow. -/
def value : Operand → Option (String × Decl)
  | of { decl := .plain t, name } => some (name, .plain t)
  | of { decl := .constRef t, name } => some (name, .plain t)
  | of { decl := .pointer t, name } => some (name, .pointer t)
  | deref { decl := .pointer t, name } => some (name, .plain t)
  | deref _ => none
  | addrOf { decl := .plain t, name } => some (name, .pointer t)
  | addrOf _ => none

end Operand

namespace Param

/-- Declaration of a parameter of the function; `tools/cfxidl/Func.cpp:17–29`. -/
def declare (p : Param) : Var :=
  { name := p.name
    decl :=
      if p.dir = .IN then if p.isPrimitive then .plain p.type else .constRef p.type
      else .pointer p.type }

end Param

namespace Func

/-- `tools/cfxidl/Func.cpp:49–56`. -/
def cmdConstName (f : Func) : String :=
  String.ofList (f.name.toList.map Char.toUpper) ++ "_CMD"

/-- `tools/cfxidl/Func.h:59–61`. -/
def cmdFuncName (f : Func) : String := f.name ++ "_cmd"

/-- The count `nin` of both generators; `tools/cfxidl/Iface.cpp:199–205,346–352`. -/
def nin (f : Func) : Nat := f.params.countP fun p ↦ p.dir = .IN ∨ p.dir = .INOUT

/-- The count `nout` of both generators; `tools/cfxidl/Iface.cpp:199–205,346–352`. -/
def nout (f : Func) : Nat := f.params.countP fun p ↦ p.dir = .OUT ∨ p.dir = .INOUT

theorem toUpper_eq_N (c : Char) : c.toUpper = 'N' ↔ c = 'n' ∨ c = 'N' := by
  constructor
  · intro h
    unfold Char.toUpper at h
    split at h
    · left
      have hv := congrArg (fun d : Char ↦ d.val.toNat) h
      have hc := c.val.toNat_lt
      have hk : ('A'.val - 'a'.val).toNat = 4294967264 := rfl
      have hn : 'N'.val.toNat = 78 := rfl
      have hm : 'n'.val.toNat = 110 := rfl
      dsimp only at hv
      rw [UInt32.toNat_add, hk, hn] at hv
      apply Char.ext
      apply UInt32.toNat_inj.mp
      rw [hm]
      omega
    · right
      exact h
  · rintro (rfl | rfl)
    · decide
    · decide

/-- The constant of which function is called like the one that stands for their number. -/
theorem cmdConstName_eq_iff (f : Func) :
    f.cmdConstName = "N_CMD" ↔ f.name = "n" ∨ f.name = "N" := by
  have hcmd : "N_CMD" = "N" ++ "_CMD" := rfl
  have hn : "N".toList = ['N'] := rfl
  rw [cmdConstName, hcmd, ← String.toList_inj, String.toList_append, String.toList_append,
    List.append_cancel_right_eq, String.toList_ofList, hn, List.map_eq_singleton_iff]
  simp only [toUpper_eq_N]
  constructor
  · rintro ⟨c, hc, rfl | rfl⟩
    · left
      exact String.toList_inj.mp hc
    · right
      exact String.toList_inj.mp hc
  · rintro (h | h)
    · exact ⟨'n', h ▸ rfl, .inl rfl⟩
    · exact ⟨'N', h ▸ rfl, .inr rfl⟩

end Func
end CtrlrFx.Idl
