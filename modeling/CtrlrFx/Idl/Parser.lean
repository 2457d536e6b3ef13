import CtrlrFx.Base.LR
import CtrlrFx.Idl.Iface
import CtrlrFx.Idl.Lexer

/-!
# Grammar of the interface compiler

`tools/cfxidl/cfxidl.y` with the actions of its rules and the automaton of the parser that is
generated from it, and the loop of `tools/cfxidl/cfxidl.cpp` that runs this parser on a file.
-/

namespace CtrlrFx.Idl
open Base

/-- What a token is to the grammar. -/
inductive Kind where
  | END
  | INTERFACE
  | NAME
  | NUMBER
  | DIR
  | char (c : Char)
  deriving DecidableEq, Repr

/-- Symbols that rules define. The first is the start that the generator adds. -/
inductive Nonterm where
  | accept
  | interface
  | funcDeclList
  | funcDecl
  | paramList
  | param
  deriving DecidableEq, Repr

/-- Rules in their order, after the one that the generator adds. -/
inductive Rule where
  | accept
  | interface
  | funcDeclFirst
  | funcDeclNext
  | funcDeclEmpty
  | funcDecl
  | paramFirst
  | paramNext
  | paramDir
  | param
  deriving DecidableEq, Repr

/-- `%union`, `tools/cfxidl/cfxidl.y:51–55`; tokens without a type have no value that is read. -/
inductive YYSTYPE where
  | none
  | ival (d : Dir)
  | sym (s : String)
  deriving DecidableEq, Repr

/-- `tools/cfxidl/cfxidl.cpp:9–11` -/
structure Globals where
  paramList : List Param
  funcList : List Func
  ifaceList : List Iface
  deriving DecidableEq, Repr

/-- `$n` as a string. -/
def symAt (vs : List YYSTYPE) (n : Nat) : String :=
  match vs[n - 1]? with
  | some (.sym s) => s
  | _ => ""

/-- `$n` as a direction. -/
def ivalAt (vs : List YYSTYPE) (n : Nat) : Dir :=
  match vs[n - 1]? with
  | some (.ival d) => d
  | _ => .IN

def Token.kind : Token → Kind
  | .END => .END
  | .INTERFACE => .INTERFACE
  | .NAME _ => .NAME
  | .NUMBER => .NUMBER
  | .DIR _ => .DIR
  | .char c => .char c

def Token.value : Token → YYSTYPE
  | .NAME s => .sym s
  | .DIR d => .ival d
  | _ => .none

def Rule.lhs : Rule → Nonterm
  | .accept => .accept
  | .interface => .interface
  | .funcDeclFirst | .funcDeclNext => .funcDeclList
  | .funcDeclEmpty | .funcDecl => .funcDecl
  | .paramFirst | .paramNext => .paramList
  | .paramDir | .param => .param

/-- `tools/cfxidl/cfxidl.y:66–108` -/
def Rule.rhs : Rule → List (Symbol Kind Nonterm)
  | .accept => [.nonterminal .interface, .terminal .END]
  | .interface => [.terminal .INTERFACE, .terminal .NAME, .terminal (.char '{'),
      .nonterminal .funcDeclList, .terminal (.char '}')]
  | .funcDeclFirst => [.nonterminal .funcDecl]
  | .funcDeclNext => [.nonterminal .funcDeclList, .nonterminal .funcDecl]
  | .funcDeclEmpty => [.terminal .NAME, .terminal .NAME, .terminal (.char '('),
      .terminal (.char ')'), .terminal (.char ';')]
  | .funcDecl => [.terminal .NAME, .terminal .NAME, .terminal (.char '('),
      .nonterminal .paramList, .terminal (.char ')'), .terminal (.char ';')]
  | .paramFirst => [.nonterminal .param]
  | .paramNext => [.nonterminal .paramList, .terminal (.char ','), .nonterminal .param]
  | .paramDir => [.terminal .DIR, .terminal .NAME, .terminal .NAME]
  | .param => [.terminal .NAME, .terminal .NAME]

/-- What the action of a rule does to the lists; `tools/cfxidl/cfxidl.y:66–108`. The new
function and the new interface are empty before the exchange. -/
def Rule.act (r : Rule) (vs : List YYSTYPE) (g : Globals) : Globals :=
  match r with
  | .interface =>
    { g with
      funcList := []
      ifaceList := g.ifaceList ++ [{ name := symAt vs 2, funcs := g.funcList }] }
  | .funcDeclEmpty =>
    { g with
      funcList := g.funcList ++ [{ type := symAt vs 1, name := symAt vs 2, params := [] }] }
  | .funcDecl =>
    { g with
      paramList := []
      funcList :=
        g.funcList ++ [{ type := symAt vs 1, name := symAt vs 2, params := g.paramList }] }
  | .paramDir =>
    { g with
      paramList :=
        g.paramList ++ [{ dir := ivalAt vs 1, type := symAt vs 2, name := symAt vs 3 }] }
  | .param =>
    { g with
      paramList := g.paramList ++ [{ dir := .IN, type := symAt vs 1, name := symAt vs 2 }] }
  | .accept | .funcDeclFirst | .funcDeclNext | .paramFirst | .paramNext => g

/-- The grammar. A rule whose action sets no value has that of its first symbol. -/
def grammar : LR.Grammar Token Kind Nonterm Rule YYSTYPE Globals where
  kind := Token.kind
  value := Token.value
  lhs := Rule.lhs
  rhs := Rule.rhs
  act r vs g := (vs.headD .none, r.act vs g)

/-! ### Automaton -/

/-- States, each with the rules that are being read in it. -/
inductive State where
  /-- nothing read -/
  | start
  | INTERFACE
  /-- `INTERFACE NAME` -/
  | ifaceName
  /-- `INTERFACE NAME {` -/
  | ifaceOpen
  /-- `INTERFACE NAME { func_decl_list`, `func_decl_list` -/
  | ifaceFuncs
  /-- `INTERFACE NAME { func_decl_list }` -/
  | ifaceClose
  | interface
  /-- `interface END` -/
  | accept
  | funcDeclFirst
  /-- `func_decl_list func_decl` -/
  | funcDeclNext
  /-- `NAME` of a function -/
  | funcType
  /-- `NAME NAME` of a function -/
  | funcName
  /-- `NAME NAME (` -/
  | funcOpen
  /-- `NAME NAME ( )` -/
  | emptyClose
  /-- `NAME NAME ( ) ;` -/
  | emptyEnd
  /-- `NAME NAME ( param_list`, `param_list` -/
  | funcParams
  /-- `NAME NAME ( param_list )` -/
  | funcClose
  /-- `NAME NAME ( param_list ) ;` -/
  | funcEnd
  | paramFirst
  /-- `param_list ,` -/
  | comma
  /-- `param_list , param` -/
  | paramNext
  | DIR
  /-- `DIR NAME` -/
  | dirType
  /-- `DIR NAME NAME` -/
  | dirName
  /-- `NAME` of a parameter -/
  | paramType
  /-- `NAME NAME` of a parameter -/
  | paramName
  deriving DecidableEq, Repr

namespace State

/-- Rules with the numbers of symbols that are read of them. -/
def items : State → List (Rule × Nat)
  | start => [(.accept, 0)]
  | INTERFACE => [(.interface, 1)]
  | ifaceName => [(.interface, 2)]
  | ifaceOpen => [(.interface, 3)]
  | ifaceFuncs => [(.interface, 4), (.funcDeclNext, 1)]
  | ifaceClose => [(.interface, 5)]
  | interface => [(.accept, 1)]
  | accept => [(.accept, 2)]
  | funcDeclFirst => [(.funcDeclFirst, 1)]
  | funcDeclNext => [(.funcDeclNext, 2)]
  | funcType => [(.funcDeclEmpty, 1), (.funcDecl, 1)]
  | funcName => [(.funcDeclEmpty, 2), (.funcDecl, 2)]
  | funcOpen => [(.funcDeclEmpty, 3), (.funcDecl, 3)]
  | emptyClose => [(.funcDeclEmpty, 4)]
  | emptyEnd => [(.funcDeclEmpty, 5)]
  | funcParams => [(.funcDecl, 4), (.paramNext, 1)]
  | funcClose => [(.funcDecl, 5)]
  | funcEnd => [(.funcDecl, 6)]
  | paramFirst => [(.paramFirst, 1)]
  | comma => [(.paramNext, 2)]
  | paramNext => [(.paramNext, 3)]
  | DIR => [(.paramDir, 1)]
  | dirType => [(.paramDir, 2)]
  | dirName => [(.paramDir, 3)]
  | paramType => [(.param, 1)]
  | paramName => [(.param, 2)]

/-- A state whose rule is read to its end reduces. -/
def mode : State → LR.Mode Rule
  | accept => .accept
  | ifaceClose => .reduce .interface
  | funcDeclFirst => .reduce .funcDeclFirst
  | funcDeclNext => .reduce .funcDeclNext
  | emptyEnd => .reduce .funcDeclEmpty
  | funcEnd => .reduce .funcDecl
  | paramFirst => .reduce .paramFirst
  | paramNext => .reduce .paramNext
  | dirName => .reduce .paramDir
  | paramName => .reduce .param
  | _ => .shift

def next : State → Symbol Kind Nonterm → Option State
  | start, .terminal .INTERFACE => some INTERFACE
  | start, .nonterminal .interface => some interface
  | interface, .terminal .END => some accept
  | INTERFACE, .terminal .NAME => some ifaceName
  | ifaceName, .terminal (.char '{') => some ifaceOpen
  | ifaceOpen, .terminal .NAME => some funcType
  | ifaceOpen, .nonterminal .funcDeclList => some ifaceFuncs
  | ifaceOpen, .nonterminal .funcDecl => some funcDeclFirst
  | ifaceFuncs, .terminal .NAME => some funcType
  | ifaceFuncs, .terminal (.char '}') => some ifaceClose
  | ifaceFuncs, .nonterminal .funcDecl => some funcDeclNext
  | funcType, .terminal .NAME => some funcName
  | funcName, .terminal (.char '(') => some funcOpen
  | funcOpen, .terminal (.char ')') => some emptyClose
  | funcOpen, .terminal .DIR => some DIR
  | funcOpen, .terminal .NAME => some paramType
  | funcOpen, .nonterminal .paramList => some funcParams
  | funcOpen, .nonterminal .param => some paramFirst
  | emptyClose, .terminal (.char ';') => some emptyEnd
  | funcParams, .terminal (.char ')') => some funcClose
  | funcParams, .terminal (.char ',') => some comma
  | funcClose, .terminal (.char ';') => some funcEnd
  | comma, .terminal .DIR => some DIR
  | comma, .terminal .NAME => some paramType
  | comma, .nonterminal .param => some paramNext
  | DIR, .terminal .NAME => some dirType
  | dirType, .terminal .NAME => some dirName
  | paramType, .terminal .NAME => some paramName
  | _, _ => none

end State

/-- All rules. -/
def Rule.all : List Rule :=
  [.accept, .interface, .funcDeclFirst, .funcDeclNext, .funcDeclEmpty, .funcDecl, .paramFirst,
    .paramNext, .paramDir, .param]

/-- All symbols of the rules. -/
def symbols : List (Symbol Kind Nonterm) := Rule.all.flatMap Rule.rhs

/-- The automaton is that of the grammar: over every symbol a state goes on to the state that
has read it, and it reduces exactly if a rule is read to its end. -/
theorem automaton_eq (q : State) :
    (∀ X ∈ symbols, grammar.goto Rule.all q.items X = (q.next X).elim [] State.items) ∧
      ∀ r ∈ Rule.all, r ≠ .accept → (q.mode = .reduce r ↔ q.items = [(r, r.rhs.length)]) := by
  cases q <;> decide +kernel

/-- `yyparse` on the scanner. -/
def parser : LR.Parser State Scanner Token Kind Nonterm Rule YYSTYPE Globals where
  toGrammar := grammar
  start := .start
  mode := State.mode
  next := State.next
  lex := yylex

/-- `do { yyparse(); } while (!feof(yyin));`, `tools/cfxidl/cfxidl.cpp:102–105`. -/
def mainStep (feof : Scanner → Bool) :
    LR.Conf State Scanner YYSTYPE Globals → Option (LR.Conf State Scanner YYSTYPE Globals)
  | .returned _ s g => if feof s then none else some (.parsing s [] g)
  | c => parser.step c

/-- The file before the first call. -/
def fileStart (file : List Char) : LR.Conf State Scanner YYSTYPE Globals :=
  .parsing ⟨file, false⟩ [] ⟨[], [], []⟩

theorem parser_consistent : parser.Consistent := by
  constructor
  · intro q X q' h
    change State.next q X = some q' at h
    show State.mode q = _
    unfold State.next at h
    split at h <;> first | rfl | cases h
  · intro q r q' h
    change State.next q (.nonterminal r.lhs) = some q' at h
    cases q <;> cases r <;> first | exact ⟨_, rfl, rfl⟩ | cases h

end CtrlrFx.Idl
