import CtrlrFx.Base.Scope
import CtrlrFx.Idl.Iface
import Mathlib.Algebra.Group.Nat.Defs

/-!
# Names in the code that is written

`tools/cfxidl/Iface.cpp` writes three classes: the interface, and a stub and a skeleton that
inherit from it. Their functions have variables that are called like the parameters of the
interface, next to those that the compiler adds, and everything in them hides what is further out:
a variable hides a member, a member one of a base class, and that a name of the library. So a name
of the interface can take the place of one that the compiler writes for something else.
-/

namespace CtrlrFx.Idl
open Base Scope

/-! ### Words -/

/-- The words of C++98 that are no names. -/
def cppKeywords : List String :=
  ["and", "and_eq", "asm", "auto", "bitand", "bitor", "bool", "break", "case", "catch", "char",
    "class", "compl", "const", "const_cast", "continue", "default", "delete", "do", "double",
    "dynamic_cast", "else", "enum", "explicit", "export", "extern", "false", "float", "for",
    "friend", "goto", "if", "inline", "int", "long", "mutable", "namespace", "new", "not",
    "not_eq", "operator", "or", "or_eq", "private", "protected", "public", "register",
    "reinterpret_cast", "return", "short", "signed", "sizeof", "static", "static_cast", "struct",
    "switch", "template", "this", "throw", "true", "try", "typedef", "typeid", "typename", "union",
    "unsigned", "using", "virtual", "void", "volatile", "wchar_t", "while", "xor", "xor_eq"]

/-- Those of them that are types of variables. -/
def typeWords : List String :=
  ["bool", "char", "double", "float", "int", "long", "short", "signed", "unsigned", "wchar_t"]

/-- A word that can be the type of a variable. -/
def IsVarType (t : String) : Prop := t ∈ typeWords ∨ t ∉ cppKeywords

instance (t : String) : Decidable (IsVarType t) :=
  inferInstanceAs (Decidable (t ∈ typeWords ∨ t ∉ cppKeywords))

/-- A function that C++ does not tell from one that the stub has of its own. A call of
`put_cmd_hdr` has an encoder, which also goes for a truth value, and a constant, which goes for
any number. -/
def Func.Overloads (f : Func) : Prop :=
  (f.name = "put_cmd_hdr" ∧ f.params.map (·.dir) = [.IN, .IN] ∧
    (f.params.map (·.type)).head? = some "bool" ∧
      ∀ p ∈ f.params, p.type ∈ typeWords ∨ p.isPrimitive = true) ∨
  (f.name = "obj_srvr" ∧ f.params.map (·.type) = ["DistObjSrvr"] ∧ f.params.map (·.dir) ≠ [.IN])

instance (f : Func) : Decidable f.Overloads :=
  inferInstanceAs (Decidable (_ ∨ _))

/-- Names and types of a function are names and types of C++. -/
structure Func.Words (f : Func) : Prop where
  name : f.name ∉ cppKeywords
  params : ∀ p ∈ f.params, p.name ∉ cppKeywords ∧ IsVarType p.type
  result : f.type = "void" ∨ IsVarType f.type

instance (f : Func) : Decidable f.Words :=
  decidable_of_iff (f.name ∉ cppKeywords ∧
    (∀ p ∈ f.params, p.name ∉ cppKeywords ∧ IsVarType p.type) ∧
    (f.type = "void" ∨ IsVarType f.type))
    ⟨fun ⟨h, h', h''⟩ ↦ ⟨h, h', h''⟩, fun h ↦ ⟨h.name, h.params, h.result⟩⟩

/-! ### Members of the classes -/

namespace Iface

/-- `tools/cfxidl/Iface.h:24`. -/
def ifaceName (i : Iface) : String := "I" ++ i.name

/-- `tools/cfxidl/Iface.cpp:106,156`. -/
def stubName (i : Iface) : String := i.name ++ "_stub"

/-- `tools/cfxidl/Iface.cpp:263,315`. -/
def skelName (i : Iface) : String := i.name ++ "_skel"

/-- Members of the class of the interface, with the name of the class;
`tools/cfxidl/Iface.cpp:64–86`. -/
def ifaceMembers (i : Iface) : List String :=
  i.ifaceName :: "OBJ_CLASS" :: (i.enumerators ++ i.funcs.map (·.name))

/-- Members of the class of the stub that are no functions, and those that are virtual;
`tools/cfxidl/Iface.cpp:125–146`. -/
def stubDecls (i : Iface) : List String :=
  i.stubName :: "Encoder" :: "Decoder" :: "CmdBuffer" :: "op_t" :: "objSrvr_" ::
    i.funcs.map (·.name)

/-- All members of the class of the stub. -/
def stubMembers (i : Iface) : List String := "put_cmd_hdr" :: "obj_srvr" :: i.stubDecls

/-- Members of the class of the skeleton; `tools/cfxidl/Iface.cpp:286–303`. -/
def skelMembers (i : Iface) : List String :=
  i.skelName :: "Encoder" :: "Decoder" :: "op_t" :: "CmdPtr" :: "cmdTbl_" :: "invoke" ::
    i.funcs.map Func.cmdFuncName

end Iface

/-- Members of the other base class of the skeleton; `CtrlrFx/DistObj.h:34–41`. -/
def distObjMembers : List String := ["IDistObj", "op_t", "invoke"]

/-- What a name in the classes may stand for, rather than for something outside. -/
def Iface.members (i : Iface) : List String :=
  i.ifaceMembers ++ (i.stubMembers ++ (i.skelMembers ++ distObjMembers))

/-! ### Functions that are always there -/

/-- `put_cmd_hdr` of the stub; `tools/cfxidl/Iface.cpp:177–182`. -/
def putCmdHdrText : List (Mention String) :=
  [.use "BufEncoder" none, .declare "enc", .use "op_t" (some 0), .declare "cmd",
    .use "objSrvr_" (some 0), .use "tgt_obj" none, .use "OBJ_CLASS" (some 1),
    .use "uint16_t" none]

/-- `invoke` of the skeleton; `tools/cfxidl/Iface.cpp:413–417`. -/
def invokeText : List (Mention String) :=
  [.use "op_t" (some 0), .declare "op", .use "Decoder" (some 0), .declare "param",
    .use "Encoder" (some 0), .declare "rsp", .use "N_CMD" (some 2), .use "CmdPtr" (some 0),
    .declare "p", .use "cmdTbl_" (some 0)]

/-- Names of the library that stubs use, and the class of the interface. -/
def libraryNames : List String :=
  ["uint16_t", "byte", "BufEncoder", "tgt_obj", "BIN_MSG_TYPE_CMD"]

/-- The classes can be declared, and the code in them that is the same for all interfaces means
what it is to mean. Of two bases that have a name, neither is meant by it. -/
structure Iface.Classes (i : Iface) : Prop where
  iface : i.ifaceMembers.Nodup
  stub : i.stubDecls.Nodup
  skel : i.skelMembers.Nodup
  own : ∀ f ∈ i.funcs, ¬f.Overloads
  library : ∀ x ∈ libraryNames, x ∉ i.stubMembers ∧ x ∉ i.ifaceMembers
  header : Resolves [i.stubMembers, i.ifaceMembers] [] putCmdHdrText
  invoke : Resolves [i.skelMembers, distObjMembers, i.ifaceMembers] [] invokeText

instance (i : Iface) : Decidable i.Classes :=
  decidable_of_iff (i.ifaceMembers.Nodup ∧ i.stubDecls.Nodup ∧ i.skelMembers.Nodup ∧
    (∀ f ∈ i.funcs, ¬f.Overloads) ∧
    (∀ x ∈ libraryNames, x ∉ i.stubMembers ∧ x ∉ i.ifaceMembers) ∧
    Resolves [i.stubMembers, i.ifaceMembers] [] putCmdHdrText ∧
    Resolves [i.skelMembers, distObjMembers, i.ifaceMembers] [] invokeText)
    ⟨fun ⟨h₁, h₂, h₃, h₄, h₅, h₆, h₇⟩ ↦ ⟨h₁, h₂, h₃, h₄, h₅, h₆, h₇⟩,
      fun h ↦ ⟨h.iface, h.stub, h.skel, h.own, h.library, h.header, h.invoke⟩⟩

/-! ### Functions of the interface -/

/-- A parameter, with its type first. -/
def Param.mentions (p : Param) : List (Mention String) := [.use p.type none, .declare p.name]

namespace Func

def mentions (f : Func) : List (Mention String) := f.params.flatMap Param.mentions

/-- The variable for the result, where there is one. -/
def retMentions (f : Func) : List (Mention String) :=
  if f.type = "void" then [] else [.use f.type none, .declare "_ret"]

/-- The declaration of the function in a class; `tools/cfxidl/Func.cpp:73–78`. -/
def prototype (f : Func) : List (Mention String) :=
  (if f.type = "void" then [] else [.use f.type none]) ++ f.mentions

/-- The stub behind its parameters. The type of the result comes up once more at the end, in the
value for a reply that is bad; `tools/cfxidl/Iface.cpp:188–244`. -/
def stubBody (f : Func) : List (Mention String) :=
  [.use "CmdBuffer" (some 0), .declare "cmd", .declare "rsp", .use "Encoder" (some 0),
    .declare "cmdEnc", .use "put_cmd_hdr" (some 0), .use f.cmdConstName (some 1)] ++
  if f.type = "void" ∧ f.nout = 0 then [.use "objSrvr_" (some 0), .use "BIN_MSG_TYPE_CMD" none]
  else [.declare "_n", .use "objSrvr_" (some 0), .use "BIN_MSG_TYPE_CMD" none] ++ f.retMentions ++
    [.use "Decoder" (some 0), .declare "rspDec"] ++
      if f.type = "void" then [] else [.use f.type none]

/-- The handler up to its variables; `tools/cfxidl/Iface.cpp:358–359`. -/
def handlerHead : List (Mention String) :=
  [.use "Decoder" (some 0), .declare "param", .use "Encoder" (some 0), .declare "rsp"]

/-- The handler behind those for the parameters; `tools/cfxidl/Iface.cpp:379–408`. -/
def handlerBody (f : Func) : List (Mention String) := f.retMentions ++ [.use f.name (some 2)]

/-- Every name in the code for a function means what it is written for. -/
structure Named (i : Iface) (f : Func) : Prop where
  words : f.Words
  iface : Resolves [i.ifaceMembers] [] f.prototype
  stubDecl : Resolves [i.stubMembers, i.ifaceMembers] [] f.prototype
  stub : Resolves [i.stubMembers, i.ifaceMembers] [] (f.mentions ++ f.stubBody)
  handler : Resolves [i.skelMembers, distObjMembers, i.ifaceMembers] []
    (handlerHead ++ f.mentions ++ f.handlerBody)

/-! ### Which names are hidden -/

/-- Names that a parameter must not have: those that stub and handler mention behind their
parameters, and the other parameters of the handler. -/
def reserved (f : Func) : List String :=
  f.stubBody.map Mention.name ++ (f.handlerBody.map Mention.name ++ ["param", "rsp"])

/-- The names of a function are names of their own in the code that is written for it. -/
structure Fresh (i : Iface) (f : Func) : Prop where
  words : f.Words
  /-- Constant and function are not hidden by members of the classes. -/
  const : f.cmdConstName ∉ i.stubMembers
  called : f.name ∉ i.skelMembers ∧ f.name ∉ distObjMembers ∧ f.name ∉ ["param", "rsp"]
  /-- Parameters have different names, which hide neither types behind them nor what the compiler
  writes. -/
  apart : f.params.Pairwise fun p q ↦ p.name ≠ q.type ∧ p.name ≠ q.name
  params : ∀ p ∈ f.params, p.name ∉ f.reserved
  /-- Types are called like no member and no variable in front of them. -/
  types : ∀ p ∈ f.params, p.type ∉ i.members ∧ p.type ∉ ["param", "rsp"]
  result : f.type ≠ "void" → f.type ∉ i.members ∧ f.type ∉ ["param", "rsp"] ∧
    f.type ∉ ["cmd", "rsp", "cmdEnc", "_n", "_ret", "rspDec"] ∧ f.name ≠ "_ret"

instance (i : Iface) (f : Func) : Decidable (f.Fresh i) :=
  decidable_of_iff (f.Words ∧ f.cmdConstName ∉ i.stubMembers ∧
    (f.name ∉ i.skelMembers ∧ f.name ∉ distObjMembers ∧ f.name ∉ ["param", "rsp"]) ∧
    (f.params.Pairwise fun p q ↦ p.name ≠ q.type ∧ p.name ≠ q.name) ∧
    (∀ p ∈ f.params, p.name ∉ f.reserved) ∧
    (∀ p ∈ f.params, p.type ∉ i.members ∧ p.type ∉ ["param", "rsp"]) ∧
    (f.type ≠ "void" → f.type ∉ i.members ∧ f.type ∉ ["param", "rsp"] ∧
      f.type ∉ ["cmd", "rsp", "cmdEnc", "_n", "_ret", "rspDec"] ∧ f.name ≠ "_ret"))
    ⟨fun ⟨h₁, h₂, h₃, h₄, h₅, h₆, h₇⟩ ↦ ⟨h₁, h₂, h₃, h₄, h₅, h₆, h₇⟩,
      fun h ↦ ⟨h.words, h.const, h.called, h.apart, h.params, h.types, h.result⟩⟩

/-! ### What it comes to -/

theorem forall_mem_mentions {f : Func} {P : Mention String → Prop} :
    (∀ m ∈ f.mentions, P m) ↔ ∀ p ∈ f.params, P (.use p.type none) ∧ P (.declare p.name) := by
  simp only [mentions, List.mem_flatMap, Param.mentions]
  constructor
  · intro h p hp
    exact ⟨h _ ⟨p, hp, by simp⟩, h _ ⟨p, hp, by simp⟩⟩
  · rintro h m ⟨p, hp, hm⟩
    simp only [List.mem_cons, List.not_mem_nil, or_false] at hm
    rcases hm with rfl | rfl
    · exact (h p hp).1
    · exact (h p hp).2

theorem pairwise_mentions {f : Func} : f.mentions.Pairwise (fun m m' ↦ ¬m.Hides m') ↔
    f.params.Pairwise fun p q ↦ p.name ≠ q.type ∧ p.name ≠ q.name := by
  rw [mentions, List.pairwise_flatMap]
  simp [Param.mentions, Mention.Hides, Mention.name, Mention.declared]

theorem resolves_mentions {outer : List (List String)} {f : Func} :
    Resolves outer [] f.mentions ↔
      (f.params.Pairwise fun p q ↦ p.name ≠ q.type ∧ p.name ≠ q.name) ∧
        ∀ p ∈ f.params, lookup outer p.type = none := by
  rw [resolves_iff, pairwise_mentions, forall_mem_mentions (P := fun m ↦ m.Means outer)]
  simp [Mention.Means]

theorem declared_mentions (f : Func) :
    f.mentions.filterMap Mention.declared = f.params.map (·.name) := by
  rw [mentions]
  induction f.params with
  | nil => rfl
  | cons p ps ih =>
    rw [List.flatMap_cons, List.filterMap_append, ih]
    rfl

/-- A constant ends in capitals, as none of the variables of a stub does. -/
theorem cmdConstName_notMem (f : Func) : f.cmdConstName ∉ ["cmd", "rsp", "cmdEnc"] := by
  have hend {x : String} (hx : ¬['_', 'C', 'M', 'D'] <:+ x.toList) : f.cmdConstName ≠ x := by
    rintro rfl
    apply hx
    rw [cmdConstName, String.toList_append]
    exact List.suffix_append _ _
  simp only [List.mem_cons, List.not_mem_nil, or_false, not_or]
  exact ⟨hend (by decide), hend (by decide), hend (by decide)⟩

end Func

namespace Iface.Classes

variable {i : Iface}

theorem lookup_library (hc : i.Classes) {x : String} (hx : x ∈ libraryNames) :
    lookup [i.stubMembers, i.ifaceMembers] x = none := by
  rw [lookup_eq_none]
  simpa using hc.library x hx

end Iface.Classes

namespace Func

/-- The stub without its parameters. -/
theorem resolves_stubBody {i : Iface} {f : Func} (hc : i.Classes) :
    Resolves [i.stubMembers, i.ifaceMembers] [] f.stubBody ↔
      lookup [i.stubMembers, i.ifaceMembers] f.cmdConstName = some 1 ∧
        (f.type ≠ "void" → lookup [i.stubMembers, i.ifaceMembers] f.type = none ∧
          f.type ∉ ["cmd", "rsp", "cmdEnc", "_n", "_ret", "rspDec"]) := by
  have hown {x : String} (hx : x ∈ ["put_cmd_hdr", "Encoder", "Decoder", "CmdBuffer", "objSrvr_"]) :
      lookup [i.stubMembers, i.ifaceMembers] x = some 0 := by
    simp only [List.mem_cons, List.not_mem_nil, or_false] at hx
    rw [lookup_cons_zero]
    rcases hx with rfl | rfl | rfl | rfl | rfl <;> simp [Iface.stubMembers, Iface.stubDecls]
  have hlib := hc.lookup_library (x := "BIN_MSG_TYPE_CMD") (by decide)
  have hconst := f.cmdConstName_notMem
  simp only [List.mem_cons, List.not_mem_nil, or_false, not_or] at hconst
  by_cases hv : f.type = "void"
  · by_cases hn : f.nout = 0
    · simp only [stubBody, hv, hn, and_self, if_true, List.cons_append, List.nil_append, Resolves,
        List.not_mem_nil, not_false_eq_true, List.mem_cons, String.reduceEq, or_self, or_false,
        or_true, hown, not_or, hlib, and_true, true_and, ne_eq, not_true_eq_false,
        IsEmpty.forall_iff, and_iff_right_iff_imp]
      exact fun _ ↦ ⟨hconst.2.2, hconst.2.1, hconst.1⟩
    · simp only [stubBody, hv, hn, and_false, if_false, if_true, retMentions, List.append_nil,
        List.cons_append, List.nil_append, Resolves, List.not_mem_nil, not_false_eq_true,
        List.mem_cons, String.reduceEq, or_self, or_false, or_true, hown, not_or, hlib, and_self,
        and_true, true_and, ne_eq, not_true_eq_false, IsEmpty.forall_iff, and_iff_right_iff_imp]
      exact fun _ ↦ ⟨hconst.2.2, hconst.2.1, hconst.1⟩
  · simp only [stubBody, hv, false_and, if_false, retMentions, List.cons_append, List.nil_append,
      Resolves, List.not_mem_nil, not_false_eq_true, List.mem_cons, String.reduceEq, or_self,
      or_false, or_true, hown, not_or, hlib, and_true, true_and, ne_eq, forall_const]
    constructor
    · rintro ⟨-, hl, -, ht, ⟨hdec, hret, hn, henc, hrsp, hcmd⟩, -⟩
      exact ⟨hl, ht, hcmd, hrsp, henc, hn, hret, hdec⟩
    · rintro ⟨hl, ht, hcmd, hrsp, henc, hn, hret, hdec⟩
      exact ⟨⟨hconst.2.2, hconst.2.1, hconst.1⟩, hl, ⟨hn, henc, hrsp, hcmd⟩, ht,
        ⟨hdec, hret, hn, henc, hrsp, hcmd⟩, ht⟩

/-- The handler without the variables for the parameters. -/
theorem resolves_handlerBody {i : Iface} {f : Func} :
    Resolves [i.skelMembers, distObjMembers, i.ifaceMembers] [] (handlerHead ++ f.handlerBody) ↔
      lookup [i.skelMembers, distObjMembers, i.ifaceMembers] f.name = some 2 ∧
        f.name ∉ ["param", "rsp"] ∧
          (f.type ≠ "void" → lookup [i.skelMembers, distObjMembers, i.ifaceMembers] f.type = none ∧
            f.type ∉ ["param", "rsp"] ∧ f.name ≠ "_ret") := by
  have hown {x : String} (hx : x ∈ ["Encoder", "Decoder"]) :
      lookup [i.skelMembers, distObjMembers, i.ifaceMembers] x = some 0 := by
    simp only [List.mem_cons, List.not_mem_nil, or_false] at hx
    rw [lookup_cons_zero]
    rcases hx with rfl | rfl <;> simp [Iface.skelMembers]
  by_cases hv : f.type = "void"
  · simp only [handlerHead, handlerBody, retMentions, hv, if_true, List.nil_append,
      List.cons_append, Resolves, List.not_mem_nil, not_false_eq_true, List.mem_cons,
      String.reduceEq, or_false, or_true, hown, or_self, not_or, and_true, true_and, ne_eq,
      not_true_eq_false, IsEmpty.forall_iff]
    constructor
    · rintro ⟨⟨hrsp, hparam⟩, hl⟩
      exact ⟨hl, hparam, hrsp⟩
    · rintro ⟨hl, hparam, hrsp⟩
      exact ⟨⟨hrsp, hparam⟩, hl⟩
  · simp only [handlerHead, handlerBody, retMentions, hv, if_false, List.cons_append,
      List.nil_append, Resolves, List.not_mem_nil, not_false_eq_true, List.mem_cons,
      String.reduceEq, or_false, or_true, hown, or_self, not_or, and_true, true_and, ne_eq,
      forall_const]
    constructor
    · rintro ⟨⟨htr, htp⟩, ht, ⟨hret, hrsp, hparam⟩, hl⟩
      exact ⟨hl, ⟨hparam, hrsp⟩, ht, ⟨htp, htr⟩, hret⟩
    · rintro ⟨hl, ⟨hparam, hrsp⟩, ht, ⟨htp, htr⟩, hret⟩
      exact ⟨⟨htr, htp⟩, ht, ⟨hret, hrsp, hparam⟩, hl⟩

/-- The parameters hide no name behind them exactly if they have none that is reserved. -/
theorem forall_notMem_reserved {f : Func} : (∀ p ∈ f.params, p.name ∉ f.reserved) ↔
    (∀ m ∈ f.stubBody, m.name ∉ f.mentions.filterMap Mention.declared) ∧
      (∀ m ∈ f.handlerBody, m.name ∉ f.mentions.filterMap Mention.declared) ∧
        ∀ p ∈ f.params, p.name ∉ ["param", "rsp"] := by
  have hswap (ms : List (Mention String)) :
      (∀ m ∈ ms, m.name ∉ f.mentions.filterMap Mention.declared) ↔
        ∀ p ∈ f.params, p.name ∉ ms.map Mention.name := by
    simp only [declared_mentions, List.mem_map, not_exists, not_and]
    constructor
    · intro h p hp m hm he
      exact h m hm p hp he.symm
    · intro h m hm p hp he
      exact h p hp m hm he.symm
  rw [hswap, hswap]
  simp only [reserved, List.mem_append, not_or, forall_and]

theorem mem_ifaceMembers {i : Iface} {f : Func} (hf : f ∈ i.funcs) :
    f.cmdConstName ∈ i.ifaceMembers ∧ f.name ∈ i.ifaceMembers := by
  have hne : i.funcs ≠ [] := List.ne_nil_of_mem hf
  rw [Iface.ifaceMembers, Iface.enumerators, if_neg hne]
  simp only [List.mem_cons, List.mem_append]
  exact ⟨.inr (.inr (.inl (.inl (List.mem_map_of_mem hf)))),
    .inr (.inr (.inr (List.mem_map_of_mem hf)))⟩

/-! ### Looking names up -/

theorem lookup_iface {i : Iface} {x : String} :
    lookup [i.ifaceMembers] x = none ↔ x ∉ i.ifaceMembers := by
  simp [lookup_eq_none]

theorem lookup_stub {i : Iface} {x : String} :
    lookup [i.stubMembers, i.ifaceMembers] x = none ↔
      x ∉ i.stubMembers ∧ x ∉ i.ifaceMembers := by
  simp [lookup_eq_none]

theorem lookup_skel {i : Iface} {x : String} :
    lookup [i.skelMembers, distObjMembers, i.ifaceMembers] x = none ↔
      x ∉ i.skelMembers ∧ x ∉ distObjMembers ∧ x ∉ i.ifaceMembers := by
  simp [lookup_eq_none]

theorem notMem_members {i : Iface} {x : String} : x ∉ i.members ↔ x ∉ i.ifaceMembers ∧
    x ∉ i.stubMembers ∧ x ∉ i.skelMembers ∧ x ∉ distObjMembers := by
  simp only [Iface.members, List.mem_append, not_or]

/-- The constant of a function is found in the base class of the stub. -/
theorem lookup_cmdConstName {i : Iface} {f : Func} (hf : f ∈ i.funcs) :
    lookup [i.stubMembers, i.ifaceMembers] f.cmdConstName = some 1 ↔
      f.cmdConstName ∉ i.stubMembers := by
  rw [lookup_cons_succ, lookup_cons_zero, and_iff_left (mem_ifaceMembers hf).1]

theorem lookup_name {i : Iface} {f : Func} (hf : f ∈ i.funcs) :
    lookup [i.skelMembers, distObjMembers, i.ifaceMembers] f.name = some 2 ↔
      f.name ∉ i.skelMembers ∧ f.name ∉ distObjMembers := by
  rw [lookup_cons_succ, lookup_cons_succ, lookup_cons_zero, and_iff_left (mem_ifaceMembers hf).2]

theorem resolves_prototype {outer : List (List String)} {f : Func} :
    Resolves outer [] f.prototype ↔
      (f.params.Pairwise fun p q ↦ p.name ≠ q.type ∧ p.name ≠ q.name) ∧
        (∀ p ∈ f.params, lookup outer p.type = none) ∧
          (f.type ≠ "void" → lookup outer f.type = none) := by
  have h := resolves_between outer (if f.type = "void" then [] else [.use f.type none])
    f.mentions []
  rw [List.append_nil, List.append_nil, resolves_mentions] at h
  rw [prototype, h]
  by_cases hv : f.type = "void"
  · simp [hv, Resolves]
  · simp only [hv, if_false, Resolves, List.not_mem_nil, not_false_eq_true, and_true, true_and,
      List.filterMap_cons, List.filterMap_nil, Mention.declared, implies_true, false_imp_iff, ne_eq,
      forall_const]
    constructor
    · rintro ⟨ht, ha, hp⟩
      exact ⟨ha, hp, ht⟩
    · rintro ⟨ha, hp, ht⟩
      exact ⟨ht, ha, hp⟩

/-- The whole stub. -/
theorem resolves_stub {i : Iface} {f : Func} (hc : i.Classes) (hf : f ∈ i.funcs) :
    Resolves [i.stubMembers, i.ifaceMembers] [] (f.mentions ++ f.stubBody) ↔
      (f.cmdConstName ∉ i.stubMembers ∧ (f.type ≠ "void" →
        (f.type ∉ i.stubMembers ∧ f.type ∉ i.ifaceMembers) ∧
          f.type ∉ ["cmd", "rsp", "cmdEnc", "_n", "_ret", "rspDec"])) ∧
      Resolves [i.stubMembers, i.ifaceMembers] [] f.mentions ∧
        ∀ m ∈ f.stubBody, m.name ∉ f.mentions.filterMap Mention.declared := by
  have h := resolves_between [i.stubMembers, i.ifaceMembers] [] f.mentions f.stubBody
  rw [List.nil_append, List.nil_append, resolves_stubBody hc, lookup_cmdConstName hf,
    lookup_stub] at h
  rw [h]
  simp only [List.filterMap_nil, List.not_mem_nil, not_false_eq_true, implies_true, true_and]

/-- The whole handler. -/
theorem resolves_handler {i : Iface} {f : Func} (hf : f ∈ i.funcs) :
    Resolves [i.skelMembers, distObjMembers, i.ifaceMembers] []
        (handlerHead ++ f.mentions ++ f.handlerBody) ↔
      ((f.name ∉ i.skelMembers ∧ f.name ∉ distObjMembers) ∧ f.name ∉ ["param", "rsp"] ∧
        (f.type ≠ "void" →
          (f.type ∉ i.skelMembers ∧ f.type ∉ distObjMembers ∧ f.type ∉ i.ifaceMembers) ∧
            f.type ∉ ["param", "rsp"] ∧ f.name ≠ "_ret")) ∧
      Resolves [i.skelMembers, distObjMembers, i.ifaceMembers] [] f.mentions ∧
        (∀ p ∈ f.params, p.type ∉ ["param", "rsp"] ∧ p.name ∉ ["param", "rsp"]) ∧
          ∀ m ∈ f.handlerBody, m.name ∉ f.mentions.filterMap Mention.declared := by
  have hhead : handlerHead.filterMap Mention.declared = ["param", "rsp"] := rfl
  rw [resolves_between, resolves_handlerBody, lookup_name hf, lookup_skel, hhead,
    forall_mem_mentions]
  rfl

/-- The names in the code for a function mean what they are written for exactly if those of the
function are names of their own. -/
theorem named_iff {i : Iface} {f : Func} (hc : i.Classes) (hf : f ∈ i.funcs) :
    f.Named i ↔ f.Fresh i := by
  constructor
  · intro h
    obtain ⟨⟨hconst, hret⟩, hstub, hbody⟩ := (resolves_stub hc hf).mp h.stub
    obtain ⟨⟨hname, hvar, hret'⟩, hskel, hparam, hbody'⟩ := (resolves_handler hf).mp h.handler
    rw [resolves_mentions] at hstub hskel
    refine ⟨h.words, hconst, ⟨hname.1, hname.2, hvar⟩, hstub.1, ?_, ?_, ?_⟩
    · exact forall_notMem_reserved.mpr ⟨hbody, hbody', fun p hp ↦ (hparam p hp).2⟩
    · intro p hp
      rcases lookup_skel.mp (hskel.2 p hp) with ⟨hk, hd, hi⟩
      exact ⟨notMem_members.mpr ⟨hi, (lookup_stub.mp (hstub.2 p hp)).1, hk, hd⟩, (hparam p hp).1⟩
    · intro hv
      rcases hret' hv with ⟨⟨hk, hd, hi⟩, hpr, hr⟩
      exact ⟨notMem_members.mpr ⟨hi, (hret hv).1.1, hk, hd⟩, hpr, (hret hv).2, hr⟩
  · intro h
    obtain ⟨hbody, hbody', hparam⟩ := forall_notMem_reserved.mp h.params
    have htypes (p : Param) (hp : p ∈ f.params) := notMem_members.mp (h.types p hp).1
    have hret (hv : f.type ≠ "void") := notMem_members.mp (h.result hv).1
    refine ⟨h.words, ?_, ?_, ?_, ?_⟩
    · exact resolves_prototype.mpr ⟨h.apart, fun p hp ↦ lookup_iface.mpr (htypes p hp).1,
        fun hv ↦ lookup_iface.mpr (hret hv).1⟩
    · exact resolves_prototype.mpr ⟨h.apart,
        fun p hp ↦ lookup_stub.mpr ⟨(htypes p hp).2.1, (htypes p hp).1⟩,
        fun hv ↦ lookup_stub.mpr ⟨(hret hv).2.1, (hret hv).1⟩⟩
    · refine (resolves_stub hc hf).mpr ⟨⟨h.const, fun hv ↦ ?_⟩, resolves_mentions.mpr ⟨h.apart,
        fun p hp ↦ lookup_stub.mpr ⟨(htypes p hp).2.1, (htypes p hp).1⟩⟩, hbody⟩
      exact ⟨⟨(hret hv).2.1, (hret hv).1⟩, (h.result hv).2.2.1⟩
    · refine (resolves_handler hf).mpr ⟨⟨⟨h.called.1, h.called.2.1⟩, h.called.2.2, fun hv ↦ ?_⟩,
        resolves_mentions.mpr ⟨h.apart, fun p hp ↦ lookup_skel.mpr ⟨(htypes p hp).2.2.1,
          (htypes p hp).2.2.2, (htypes p hp).1⟩⟩,
        fun p hp ↦ ⟨(h.types p hp).2, hparam p hp⟩, hbody'⟩
      exact ⟨⟨(hret hv).2.2.1, (hret hv).2.2.2, (hret hv).1⟩, (h.result hv).2.1,
        (h.result hv).2.2.2⟩

end Func

namespace Iface

/-- Names of interface and classes do not get in each other's way. -/
structure Clear (i : Iface) : Prop where
  classes : i.Classes
  fresh : ∀ f ∈ i.funcs, f.Fresh i

/-- The number that the stub of a function puts into its command, an `op_t`. A parameter that is
called like the constant hides it, and the stub puts what it was given for that. -/
def sent (i : Iface) (f : Func) : Option Nat :=
  if f.cmdConstName ∈ f.params.map (·.name) then none
  else if lookup [i.stubMembers, i.ifaceMembers] f.cmdConstName = some 1 then
    (i.enumValue f.createStub.cmd).map (· % 2 ^ 32)
  else none

/-- Where no name is hidden the number is that of the constant. -/
theorem Clear.sent_eq {i : Iface} {f : Func} (h : i.Clear) (hf : f ∈ i.funcs) :
    i.sent f = (i.enumValue f.createStub.cmd).map (· % 2 ^ 32) := by
  have hfresh := h.fresh f hf
  have hparam : f.cmdConstName ∉ f.params.map (·.name) := by
    rw [← f.declared_mentions]
    refine (Func.forall_notMem_reserved.mp hfresh.params).1 (.use f.cmdConstName (some 1)) ?_
    rw [Func.stubBody]
    simp
  rw [sent, if_neg hparam, if_pos ((Func.lookup_cmdConstName hf).mpr hfresh.const)]

/-- The name of the class of the interface is not that of the number of functions. -/
theorem ifaceName_ne (i : Iface) : i.ifaceName ≠ "N_CMD" := by
  intro h
  have hl := congrArg String.toList h
  rw [ifaceName, String.toList_append] at hl
  exact absurd (congrArg List.head? hl) (by simp)

/-- Where the classes can be declared there is a function, and the constants are distinct. -/
theorem Classes.consts {i : Iface} (h : i.Classes) :
    i.funcs ≠ [] ∧ (i.funcs.map Func.cmdConstName).Nodup ∧
      "N_CMD" ∉ i.funcs.map Func.cmdConstName := by
  have hcount : "N_CMD" ∈ i.ifaceMembers := by
    have hmeans := (resolves_iff.mp h.invoke).2.2 (.use "N_CMD" (some 2)) (by decide)
    exact lookup_cons_zero.mp (lookup_cons_succ.mp (lookup_cons_succ.mp hmeans).2).2
  have hne : i.funcs ≠ [] := by
    intro hnil
    rw [ifaceMembers, enumerators, if_pos hnil, hnil] at hcount
    simp only [List.map_nil, List.append_nil, List.mem_cons, List.not_mem_nil, or_false] at hcount
    rcases hcount with hc | hc
    · exact i.ifaceName_ne hc.symm
    · exact absurd hc (by decide)
  have hnd := h.iface
  rw [ifaceMembers, enumerators, if_neg hne, List.nodup_cons, List.nodup_cons] at hnd
  have hcs := hnd.2.2.of_append_left
  refine ⟨hne, hcs.of_append_left, fun hmem ↦ ?_⟩
  exact (List.disjoint_of_nodup_append hcs) hmem (List.mem_singleton_self _)

/-- The stub of a function sends the place of the function in the list, as far as an `op_t` goes. -/
theorem Clear.sent_getElem {i : Iface} (h : i.Clear) {k : Nat} (hk : k < i.funcs.length) :
    i.sent i.funcs[k] = some (k % 2 ^ 32) := by
  obtain ⟨hne, hd, hn⟩ := h.classes.consts
  rw [h.sent_eq (List.getElem_mem hk)]
  exact congrArg (Option.map (· % 2 ^ 32)) (enumValue_cmd hne hd hn hk)

end Iface
end CtrlrFx.Idl
