import CtrlrFx.Idl.Func
import Mathlib.Data.List.Nodup

/-!
# Stubs and skeletons of an interface

`tools/cfxidl/Iface.cpp`: for each function of an interface the compiler writes a stub, which
sends a command with the inputs and takes the outputs from the reply, and a handler, which takes
the inputs, calls the function and puts the outputs. The commands are the constants of one
enumeration, and a table has the handlers in the same order.
-/

namespace CtrlrFx.Idl

/-- `tools/cfxidl/Iface.h:12–15`. -/
structure Iface where
  name : String
  funcs : List Func
  deriving DecidableEq, Repr

/-- What the stub of a function does: the constant it puts into the command header, the operands
it encodes behind that and those it decodes from the reply, where it has such a statement, and
what it returns where there is no reply. -/
structure Stub where
  cmd : String
  encode : Option (List Operand)
  decode : Option (List Operand)
  error : String
  deriving DecidableEq, Repr

/-- What the handler of a function does: its variables, the operands it decodes from the command,
those it calls the function with, the variable it keeps the result in, and the operands it
encodes into the reply. -/
structure Handler where
  name : String
  vars : List Var
  decode : Option (List Operand)
  call : List Operand
  ret : Option Var
  encode : Option (List Operand)
  deriving DecidableEq, Repr

namespace Func

/-- The variable `_ret` of stub and handler. -/
def retVar (f : Func) : Var := { decl := .plain f.type, name := "_ret" }

/-- `tools/cfxidl/Iface.cpp:184–244`. -/
def createStub (f : Func) : Stub where
  cmd := f.cmdConstName
  encode :=
    if f.nin > 0 then
      some (f.params.filterMap fun p ↦
        if p.dir = .IN then some (.of p.declare)
        else if p.dir = .INOUT then some (.deref p.declare)
        else none)
    else none
  decode :=
    if f.type = "void" ∧ f.nout = 0 then none
    else
      some ((f.params.filterMap fun p ↦
          if p.dir = .OUT ∨ p.dir = .INOUT then some (.deref p.declare) else none) ++
        if f.type ≠ "void" then [.of f.retVar] else [])
  error := f.errVal

end Func

/-- The variable of a handler for a parameter; `tools/cfxidl/Iface.cpp:363–364`. -/
def Param.localVar (p : Param) : Var := { decl := .plain p.type, name := p.name }

namespace Func

/-- `tools/cfxidl/Iface.cpp:341–408`. -/
def createHandler (f : Func) : Handler :=
  let anyIn := f.nin ≠ 0
  let anyRsp := f.nout > 0 ∨ f.type ≠ "void"
  { name := f.cmdFuncName
    vars := f.params.map Param.localVar
    decode :=
      if anyIn then
        some (f.params.filterMap fun p ↦
          if p.dir = .IN ∨ p.dir = .INOUT then some (.of p.localVar) else none)
      else none
    call := f.params.map fun p ↦
      if p.dir = .OUT ∨ p.dir = .INOUT then .addrOf p.localVar else .of p.localVar
    ret := if f.type ≠ "void" then some f.retVar else none
    encode :=
      if anyRsp then
        some ((f.params.filterMap fun p ↦
            if p.dir = .OUT ∨ p.dir = .INOUT then some (.of p.localVar) else none) ++
          if f.type ≠ "void" then [.of f.retVar] else [])
      else none }

end Func

namespace Iface

/-- The enumeration of commands, which ends with their number;
`tools/cfxidl/Iface.cpp:72–78`. -/
def enumerators (i : Iface) : List String :=
  if i.funcs = [] then [] else i.funcs.map Func.cmdConstName ++ ["N_CMD"]

/-- The number that an enumerator stands for; one that is not declared, or declared twice, stands
for none. -/
def enumValue (i : Iface) (c : String) : Option Nat :=
  if i.enumerators.count c = 1 then some (i.enumerators.idxOf c) else none

/-- The table `cmdTbl_`, with a null pointer at its end; `tools/cfxidl/Iface.cpp:336–339`. -/
def cmdTbl (i : Iface) : List (Option String) :=
  i.funcs.map (fun f ↦ some f.cmdFuncName) ++ [none]

def handlers (i : Iface) : List Handler := i.funcs.map Func.createHandler

/-- What a call of `invoke` comes to. -/
inductive Invoked where
  | rejected
  | handled (h : Handler)
  | unknown
  | outside
  deriving DecidableEq, Repr

/-- `invoke`, where the enumeration gives it a meaning; `tools/cfxidl/Iface.cpp:413–417`. -/
def invoke (i : Iface) (op : Nat) : Option Invoked :=
  match i.enumValue "N_CMD" with
  | none => none
  | some n =>
    if op > n then some .rejected
    else
      match i.cmdTbl[op]? with
      | none => some .outside
      | some none => some .rejected
      | some (some name) =>
        match i.handlers.find? fun h ↦ h.name == name with
        | none => some .unknown
        | some h => some (.handled h)

end Iface

/-! ### Values on the wire -/

/-- Values and types of a list of operands, all of which C++ allows. -/
def values (ops : List Operand) : Option (List (String × Decl)) := ops.mapM Operand.value

/-- Values that a function takes, with their types. -/
def Func.ins (f : Func) : List (String × Decl) :=
  (f.params.filter fun p ↦ p.dir = .IN ∨ p.dir = .INOUT).map fun p ↦ (p.name, .plain p.type)

/-- Values that a function gives, with their types. -/
def Func.outs (f : Func) : List (String × Decl) :=
  ((f.params.filter fun p ↦ p.dir = .OUT ∨ p.dir = .INOUT).map fun p ↦ (p.name, .plain p.type)) ++
    if f.type ≠ "void" then [("_ret", .plain f.type)] else []

theorem values_cons {o : Operand} {ops : List Operand} {x : String × Decl}
    {xs : List (String × Decl)} (hx : o.value = some x) (hs : values ops = some xs) :
    values (o :: ops) = some (x :: xs) := by
  rw [values, List.mapM_cons, hx]
  rw [values] at hs
  rw [hs]
  rfl

theorem values_append {ops ops' : List Operand} {xs ys : List (String × Decl)}
    (h : values ops = some xs) (h' : values ops' = some ys) :
    values (ops ++ ops') = some (xs ++ ys) := by
  rw [values] at h h'
  rw [values, List.mapM_append, h, h']
  rfl

/-- Parameters that a test selects, each written as an operand for its own value. -/
theorem values_filterMap {q : Param → Prop} [DecidablePred q] {g : Param → Operand}
    (hg : ∀ p, q p → (g p).value = some (p.name, .plain p.type)) (ps : List Param) :
    values (ps.filterMap fun p ↦ if q p then some (g p) else none) =
      some ((ps.filter fun p ↦ q p).map fun p ↦ (p.name, .plain p.type)) := by
  induction ps with
  | nil => rfl
  | cons p ps ih =>
    by_cases hp : q p
    · rw [List.filterMap_cons, if_pos hp, List.filter_cons, if_pos (decide_eq_true hp),
        List.map_cons]
      exact values_cons (hg p hp) ih
    · rw [List.filterMap_cons, if_neg hp, List.filter_cons, if_neg (by simpa using hp)]
      exact ih

theorem value_localVar (p : Param) :
    (Operand.of p.localVar).value = some (p.name, .plain p.type) := rfl

/-- A parameter that is only passed in is declared as a value, and any other as a pointer. -/
theorem value_declare (p : Param) :
    (if p.dir = .IN then Operand.of p.declare else .deref p.declare).value =
      some (p.name, .plain p.type) := by
  by_cases hd : p.dir = .IN
  · rw [if_pos hd, Param.declare, if_pos hd]
    split <;> rfl
  · rw [if_neg hd, Param.declare, if_neg hd]
    rfl

namespace Func

/-- A function without inputs takes no value. -/
theorem ins_of_nin {f : Func} (h : f.nin = 0) : f.ins = [] := by
  rw [nin, List.countP_eq_length_filter] at h
  rw [ins, List.eq_nil_of_length_eq_zero h, List.map_nil]

/-- The stub encodes the values that the function takes. -/
theorem values_stub_encode (f : Func) : values (f.createStub.encode.getD []) = some f.ins := by
  have hwrite : ∀ p : Param, (if p.dir = .IN then some (.of p.declare)
      else if p.dir = .INOUT then some (.deref p.declare) else none : Option Operand) =
        if p.dir = .IN ∨ p.dir = .INOUT then
          some (if p.dir = .IN then .of p.declare else .deref p.declare) else none := by
    intro p
    cases p.dir <;> rfl
  rw [createStub]
  dsimp only
  split
  · simp only [hwrite]
    exact values_filterMap (fun p _ ↦ value_declare p) f.params
  · next h =>
    rw [ins_of_nin (by omega)]
    rfl

/-- The handler decodes the values that the function takes. -/
theorem values_handler_decode (f : Func) :
    values (f.createHandler.decode.getD []) = some f.ins := by
  rw [createHandler]
  dsimp only
  split
  · exact values_filterMap (fun p _ ↦ value_localVar p) f.params
  · next h =>
    rw [ins_of_nin (not_not.mp h)]
    rfl

/-- The result of a function, where it has one. -/
theorem values_ret (f : Func) : values (if f.type ≠ "void" then [.of f.retVar] else []) =
    some (if f.type ≠ "void" then [("_ret", .plain f.type)] else []) := by
  split <;> rfl

/-- The handler encodes the values that the function gives, where there are any. -/
theorem values_handler_encode (f : Func) :
    (f.createHandler.encode = none ∧ f.type = "void" ∧ f.nout = 0) ∨
      ∃ ops, f.createHandler.encode = some ops ∧ ¬(f.type = "void" ∧ f.nout = 0) ∧
        values ops = some f.outs := by
  rw [createHandler]
  dsimp only
  split
  · next h =>
    right
    refine ⟨_, rfl, ?_, values_append (values_filterMap (fun p _ ↦ value_localVar p) f.params)
      (values_ret f)⟩
    rintro ⟨hv, h0⟩
    rcases h with h | h
    · omega
    · exact h hv
  · next h =>
    left
    rw [not_or, not_not] at h
    exact ⟨rfl, h.2, by omega⟩

/-- The stub decodes the values that the function gives, where there are any. -/
theorem values_stub_decode (f : Func) :
    (f.createStub.decode = none ∧ f.type = "void" ∧ f.nout = 0) ∨
      ∃ ops, f.createStub.decode = some ops ∧ ¬(f.type = "void" ∧ f.nout = 0) ∧
        values ops = some f.outs := by
  have hout : ∀ p : Param, p.dir = .OUT ∨ p.dir = .INOUT →
      (Operand.deref p.declare).value = some (p.name, .plain p.type) := by
    intro p hp
    have hne : p.dir ≠ .IN := by
      rintro hd
      rw [hd] at hp
      rcases hp with h | h <;> cases h
    have hv := value_declare p
    rwa [if_neg hne] at hv
  rw [createStub]
  dsimp only
  split
  · next h =>
    left
    exact ⟨rfl, h⟩
  · next h =>
    right
    exact ⟨_, rfl, h, values_append (values_filterMap hout f.params) (values_ret f)⟩

end Func

/-! ### Numbers of commands -/

namespace Iface

variable {i : Iface}

theorem enumValue_count (h : i.funcs ≠ []) (hd : (i.funcs.map Func.cmdConstName).Nodup)
    (hn : "N_CMD" ∉ i.funcs.map Func.cmdConstName) :
    i.enumerators = i.funcs.map Func.cmdConstName ++ ["N_CMD"] ∧ i.enumerators.Nodup := by
  have he : i.enumerators = i.funcs.map Func.cmdConstName ++ ["N_CMD"] := if_neg h
  refine ⟨he, ?_⟩
  rw [he]
  apply hd.append (List.nodup_singleton _)
  intro c hc hc'
  rw [List.mem_singleton.mp hc'] at hc
  exact hn hc

theorem enumValue_of_nodup (h : i.enumerators.Nodup) {k : Nat} (hk : k < i.enumerators.length) :
    i.enumValue i.enumerators[k] = some k := by
  rw [enumValue, if_pos (List.count_eq_one_of_mem h (List.getElem_mem hk)), h.idxOf_getElem]

/-- A constant that was declared once is the number of its function. -/
theorem enumValue_cmd (h : i.funcs ≠ []) (hd : (i.funcs.map Func.cmdConstName).Nodup)
    (hn : "N_CMD" ∉ i.funcs.map Func.cmdConstName) {k : Nat} (hk : k < i.funcs.length) :
    i.enumValue i.funcs[k].cmdConstName = some k := by
  rcases enumValue_count h hd hn with ⟨he, hnd⟩
  have hlen : k < i.enumerators.length := by
    rw [he, List.length_append, List.length_map, List.length_singleton]
    omega
  have hx := enumValue_of_nodup hnd hlen
  have hg : i.enumerators[k] = i.funcs[k].cmdConstName := by
    simp only [he]
    rw [List.getElem_append_left (by rwa [List.length_map]), List.getElem_map]
  rwa [hg] at hx

/-- The last constant is the number of functions. -/
theorem enumValue_last (h : i.funcs ≠ []) (hd : (i.funcs.map Func.cmdConstName).Nodup)
    (hn : "N_CMD" ∉ i.funcs.map Func.cmdConstName) :
    i.enumValue "N_CMD" = some i.funcs.length := by
  rcases enumValue_count h hd hn with ⟨he, hnd⟩
  have hlen : i.funcs.length < i.enumerators.length := by
    rw [he, List.length_append, List.length_map, List.length_singleton]
    omega
  have hx := enumValue_of_nodup hnd hlen
  have hg : i.enumerators[i.funcs.length] = "N_CMD" := by
    simp only [he]
    rw [List.getElem_append_right (Nat.le_of_eq (List.length_map ..))]
    simp only [List.length_map, Nat.sub_self, List.getElem_cons_zero]
  rwa [hg] at hx

/-- The handler that has the name of a function's is that function's. -/
theorem find_handler (hd : (i.funcs.map Func.cmdConstName).Nodup) {f : Func} (hf : f ∈ i.funcs) :
    i.handlers.find? (fun h ↦ h.name == f.cmdFuncName) = some f.createHandler := by
  rw [handlers]
  generalize i.funcs = fs at hd hf
  induction fs with
  | nil => cases hf
  | cons g fs ih =>
    rw [List.map_cons, List.find?_cons]
    rw [List.map_cons, List.nodup_cons] at hd
    rcases List.mem_cons.mp hf with rfl | hf
    · have heq : (f.createHandler.name == f.cmdFuncName) = true := beq_self_eq_true f.cmdFuncName
      rw [heq]
    · have hne : (g.createHandler.name == f.cmdFuncName) = false := by
        apply beq_false_of_ne
        intro heq
        have hname : g.name = f.name := (String.append_left_inj "_cmd").mp heq
        apply hd.1
        rw [Func.cmdConstName, hname]
        exact List.mem_map_of_mem hf
      rw [hne]
      exact ih hd.2 hf

/-- A number below that of the functions selects the handler of its function. -/
theorem invoke_of_lt (h : i.funcs ≠ []) (hd : (i.funcs.map Func.cmdConstName).Nodup)
    (hn : "N_CMD" ∉ i.funcs.map Func.cmdConstName) {k : Nat} (hk : k < i.funcs.length) :
    i.invoke k = some (.handled i.funcs[k].createHandler) := by
  have hentry : i.cmdTbl[k]? = some (some i.funcs[k].cmdFuncName) := by
    rw [cmdTbl, List.getElem?_append_left (by rwa [List.length_map]), List.getElem?_map,
      List.getElem?_eq_getElem hk]
    rfl
  rw [invoke, enumValue_last h hd hn]
  dsimp only
  rw [if_neg (by omega), hentry]
  dsimp only
  rw [find_handler hd (List.getElem_mem hk)]

/-- Any other number is rejected. -/
theorem invoke_of_ge (h : i.funcs ≠ []) (hd : (i.funcs.map Func.cmdConstName).Nodup)
    (hn : "N_CMD" ∉ i.funcs.map Func.cmdConstName) {k : Nat} (hk : i.funcs.length ≤ k) :
    i.invoke k = some .rejected := by
  rw [invoke, enumValue_last h hd hn]
  dsimp only
  by_cases hlt : k > i.funcs.length
  · rw [if_pos hlt]
  · have hk' : k = i.funcs.length := by omega
    have hentry : i.cmdTbl[k]? = some none := by
      rw [cmdTbl, List.getElem?_append_right (by rw [List.length_map]; exact hk), List.length_map,
        hk', Nat.sub_self]
      rfl
    rw [if_neg hlt, hentry]

end Iface
end CtrlrFx.Idl
