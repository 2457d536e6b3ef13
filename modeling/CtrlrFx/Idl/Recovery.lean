import CtrlrFx.Base.LRSound
import CtrlrFx.Base.Machine
import CtrlrFx.Idl.Compile

/-!
# Calls of the parser after a syntax error

`tools/cfxidl/cfxidl.cpp` calls `yyparse` again and again, on the rest of a file and on further
files. The actions of `tools/cfxidl/cfxidl.y` collect parameters and functions in two lists that
outlive the calls: a call that is cut short leaves in them what it has collected.
-/

namespace CtrlrFx.Idl
open Base LR

/-! ### What the actions do to lists that are not empty -/

/-- What the symbols stand for, and what their actions make of the lists. -/
def Writes : Nonterm → List Token → Globals → Globals → Prop
  | .accept, _, _, _ => True
  | .interface, ts, g, g' => ∃ d : IfaceDecl, ts = d.tokens ∧ g' = d.run g
  | .funcDeclList, ts, g, g' =>
    ∃ fs : List FuncDecl, fs ≠ [] ∧ ts = fs.flatMap FuncDecl.tokens ∧ g' = fs.foldl FuncDecl.run g
  | .funcDecl, ts, g, g' => ∃ f : FuncDecl, ts = f.tokens ∧ g' = f.run g
  | .paramList, ts, g, g' =>
    ∃ ps : List ParamDecl, ps ≠ [] ∧ ts = ParamDecl.listTokens ps ∧
      g' = { g with paramList := g.paramList ++ ps.map ParamDecl.param }
  | .param, ts, g, g' =>
    ∃ p : ParamDecl, ts = p.tokens ∧ g' = { g with paramList := g.paramList ++ [p.param] }

section

variable {Xs : List (Symbol Kind Nonterm)} {ts : List Token} {vs : List YYSTYPE} {g g' : Globals}

theorem means_NAME (h : Means grammar Writes (.terminal .NAME :: Xs) ts vs g g') :
    ∃ s ts' vs', ts = .NAME s :: ts' ∧ vs = .sym s :: vs' ∧
      Means grammar Writes Xs ts' vs' g g' := by
  obtain ⟨t, ts', vs', rfl, rfl, hk, h⟩ := h
  cases t with
  | NAME s => exact ⟨s, ts', vs', rfl, rfl, h⟩
  | _ => cases hk

theorem means_DIR (h : Means grammar Writes (.terminal .DIR :: Xs) ts vs g g') :
    ∃ d ts' vs', ts = .DIR d :: ts' ∧ vs = .ival d :: vs' ∧
      Means grammar Writes Xs ts' vs' g g' := by
  obtain ⟨t, ts', vs', rfl, rfl, hk, h⟩ := h
  cases t with
  | DIR d => exact ⟨d, ts', vs', rfl, rfl, h⟩
  | _ => cases hk

theorem means_INTERFACE (h : Means grammar Writes (.terminal .INTERFACE :: Xs) ts vs g g') :
    ∃ ts' vs', ts = .INTERFACE :: ts' ∧ vs = .none :: vs' ∧
      Means grammar Writes Xs ts' vs' g g' := by
  obtain ⟨t, ts', vs', rfl, rfl, hk, h⟩ := h
  cases t with
  | INTERFACE => exact ⟨ts', vs', rfl, rfl, h⟩
  | _ => cases hk

theorem means_char {c : Char} (h : Means grammar Writes (.terminal (.char c) :: Xs) ts vs g g') :
    ∃ ts' vs', ts = .char c :: ts' ∧ vs = .none :: vs' ∧
      Means grammar Writes Xs ts' vs' g g' := by
  obtain ⟨t, ts', vs', rfl, rfl, hk, h⟩ := h
  cases t with
  | char c' =>
    cases hk
    exact ⟨ts', vs', rfl, rfl, h⟩
  | _ => cases hk

end

theorem listTokens_append {ps : List ParamDecl} (hps : ps ≠ []) (p : ParamDecl) :
    ParamDecl.listTokens (ps ++ [p]) = ParamDecl.listTokens ps ++ .char ',' :: p.tokens := by
  cases ps with
  | nil => exact absurd rfl hps
  | cons q ps => simp [ParamDecl.listTokens]

/-- The actions of each rule. -/
theorem writes_rule (r : Rule) (ts : List Token) (vs : List YYSTYPE) (g g' : Globals)
    (h : Means grammar Writes (grammar.rhs r) ts vs g g') :
    Writes (grammar.lhs r) ts g (grammar.act r vs g').2 := by
  cases r with
  | accept => trivial
  | interface =>
    obtain ⟨_, _, rfl, rfl, h₁⟩ := means_INTERFACE h
    obtain ⟨name, _, _, rfl, rfl, h₂⟩ := means_NAME h₁
    obtain ⟨_, _, rfl, rfl, h₃⟩ := means_char h₂
    obtain ⟨_, _, v, _, g₁, rfl, rfl, ⟨fs, hne, rfl, rfl⟩, h₄⟩ := h₃
    obtain ⟨_, _, rfl, rfl, rfl, rfl, rfl⟩ := means_char h₄
    exact ⟨⟨name, fs, hne⟩, by simp [IfaceDecl.tokens, IfaceDecl.tail], rfl⟩
  | funcDeclFirst =>
    obtain ⟨_, _, v, _, g₁, rfl, rfl, ⟨f, rfl, rfl⟩, rfl, rfl, rfl⟩ := h
    exact ⟨[f], by simp, by simp, rfl⟩
  | funcDeclNext =>
    obtain ⟨_, _, v, _, g₁, rfl, rfl, ⟨fs, hne, rfl, rfl⟩, h₁⟩ := h
    obtain ⟨_, _, w, _, g₂, rfl, rfl, ⟨f, rfl, rfl⟩, rfl, rfl, rfl⟩ := h₁
    refine ⟨fs ++ [f], by simp, by simp, ?_⟩
    rw [List.foldl_append]
    rfl
  | funcDeclEmpty =>
    obtain ⟨type, _, _, rfl, rfl, h₁⟩ := means_NAME h
    obtain ⟨name, _, _, rfl, rfl, h₂⟩ := means_NAME h₁
    obtain ⟨_, _, rfl, rfl, h₃⟩ := means_char h₂
    obtain ⟨_, _, rfl, rfl, h₄⟩ := means_char h₃
    obtain ⟨_, _, rfl, rfl, rfl, rfl, rfl⟩ := means_char h₄
    exact ⟨⟨type, name, []⟩, rfl, rfl⟩
  | funcDecl =>
    obtain ⟨type, _, _, rfl, rfl, h₁⟩ := means_NAME h
    obtain ⟨name, _, _, rfl, rfl, h₂⟩ := means_NAME h₁
    obtain ⟨_, _, rfl, rfl, h₃⟩ := means_char h₂
    obtain ⟨_, _, v, _, g₁, rfl, rfl, ⟨ps, hne, rfl, rfl⟩, h₄⟩ := h₃
    obtain ⟨_, _, rfl, rfl, h₅⟩ := means_char h₄
    obtain ⟨_, _, rfl, rfl, rfl, rfl, rfl⟩ := means_char h₅
    exact ⟨⟨type, name, ps⟩, by simp [FuncDecl.tokens], (if_neg hne).symm⟩
  | paramFirst =>
    obtain ⟨_, _, v, _, g₁, rfl, rfl, ⟨p, rfl, rfl⟩, rfl, rfl, rfl⟩ := h
    exact ⟨[p], by simp, by simp [ParamDecl.listTokens], rfl⟩
  | paramNext =>
    obtain ⟨_, _, v, _, g₁, rfl, rfl, ⟨ps, hne, rfl, rfl⟩, h₁⟩ := h
    obtain ⟨_, _, rfl, rfl, h₂⟩ := means_char h₁
    obtain ⟨_, _, w, _, g₂, rfl, rfl, ⟨p, rfl, rfl⟩, rfl, rfl, rfl⟩ := h₂
    refine ⟨ps ++ [p], by simp, by simp [listTokens_append hne], ?_⟩
    simp [grammar, Rule.act]
  | paramDir =>
    obtain ⟨d, _, _, rfl, rfl, h₁⟩ := means_DIR h
    obtain ⟨type, _, _, rfl, rfl, h₂⟩ := means_NAME h₁
    obtain ⟨name, _, _, rfl, rfl, rfl, rfl, rfl⟩ := means_NAME h₂
    exact ⟨⟨some d, type, name⟩, rfl, rfl⟩
  | param =>
    obtain ⟨type, _, _, rfl, rfl, h₁⟩ := means_NAME h
    obtain ⟨name, _, _, rfl, rfl, rfl, rfl, rfl⟩ := means_NAME h₁
    exact ⟨⟨none, type, name⟩, rfl, rfl⟩

/-- Functions as they come to the list when there are parameters in the other one. -/
def taken (ps : List Param) : List FuncDecl → List Func
  | [] => []
  | f :: fs =>
    if f.params = [] then f.func :: taken ps fs
    else { f.func with params := ps ++ f.func.params } :: fs.map FuncDecl.func

theorem taken_nil (fs : List FuncDecl) : taken [] fs = fs.map FuncDecl.func := by
  induction fs with
  | nil => rfl
  | cons f fs ih => by_cases hf : f.params = [] <;> simp [taken, hf, ih]

theorem length_taken (ps : List Param) (fs : List FuncDecl) : (taken ps fs).length = fs.length := by
  induction fs with
  | nil => rfl
  | cons f fs ih => by_cases hf : f.params = [] <;> simp [taken, hf, ih]

/-- The functions are as they are written exactly if there was no parameter in the list, or none of
them has one. -/
theorem taken_eq_iff (ps : List Param) (fs : List FuncDecl) :
    taken ps fs = fs.map FuncDecl.func ↔ ps = [] ∨ ∀ f ∈ fs, f.params = [] := by
  induction fs with
  | nil => simp [taken]
  | cons f fs ih =>
    by_cases hf : f.params = []
    · simp [taken, hf, ih]
    · have hne : ({ f.func with params := ps ++ f.func.params } : Func) = f.func ↔ ps = [] := by
        constructor
        · intro h
          exact List.append_left_eq_self.mp (congrArg Func.params h)
        · rintro rfl
          rfl
      simp [taken, hf, hne]

theorem funcList_foldl (fs : List FuncDecl) (g : Globals) :
    (fs.foldl FuncDecl.run g).funcList = g.funcList ++ taken g.paramList fs := by
  induction fs generalizing g with
  | nil => exact (List.append_nil _).symm
  | cons f fs ih =>
    rw [List.foldl_cons, ih]
    by_cases hf : f.params = []
    · simp [FuncDecl.run, taken, hf]
    · simp [FuncDecl.run, taken, hf, taken_nil]

theorem ifaceList_foldl (fs : List FuncDecl) (g : Globals) :
    (fs.foldl FuncDecl.run g).ifaceList = g.ifaceList := by
  induction fs generalizing g with
  | nil => rfl
  | cons f fs ih =>
    rw [List.foldl_cons, ih, FuncDecl.run]
    split <;> rfl

/-- The interface that is added. -/
theorem ifaceList_run (d : IfaceDecl) (g : Globals) :
    (d.run g).ifaceList =
      g.ifaceList ++ [{ name := d.name, funcs := g.funcList ++ taken g.paramList d.funcs }] := by
  rw [IfaceDecl.run]
  simp only [ifaceList_foldl, funcList_foldl]

/-- The lists have nothing that the interface would take for its own. -/
def Clean (g : Globals) (d : IfaceDecl) : Prop :=
  g.funcList = [] ∧ (g.paramList = [] ∨ ∀ f ∈ d.funcs, f.params = [])

theorem clean_iff (g : Globals) (d : IfaceDecl) :
    ({ name := d.name, funcs := g.funcList ++ taken g.paramList d.funcs } : Iface) = d.iface ↔
      Clean g d := by
  rw [IfaceDecl.iface, Iface.mk.injEq, Clean, ← taken_eq_iff]
  constructor
  · rintro ⟨-, h⟩
    have hlen := congrArg List.length h
    rw [List.length_append, length_taken, List.length_map] at hlen
    have hnil : g.funcList = [] := List.eq_nil_of_length_eq_zero (by omega)
    rw [hnil, List.nil_append] at h
    exact ⟨hnil, h⟩
  · rintro ⟨hnil, h⟩
    rw [hnil, List.nil_append]
    exact ⟨rfl, h⟩

/-! ### Texts have one meaning -/

theorem ParamDecl.tokens_inj {p q : ParamDecl} {xs ys : List Token}
    (h : p.tokens ++ xs = q.tokens ++ ys) : p = q ∧ xs = ys := by
  rcases p with ⟨_ | d, t, n⟩ <;> rcases q with ⟨_ | e, u, m⟩ <;>
    simp_all [ParamDecl.tokens]

theorem ParamDecl.more_inj {ps qs : List ParamDecl} {xs ys : List Token}
    (h : (ps.flatMap fun p ↦ .char ',' :: p.tokens) ++ .char ')' :: xs =
      (qs.flatMap fun p ↦ .char ',' :: p.tokens) ++ .char ')' :: ys) : ps = qs ∧ xs = ys := by
  induction ps generalizing qs with
  | nil =>
    cases qs with
    | nil => simpa using h
    | cons q qs => simp at h
  | cons p ps ih =>
    cases qs with
    | nil => simp at h
    | cons q qs =>
      simp only [List.flatMap_cons, List.cons_append, List.append_assoc, List.cons.injEq,
        true_and] at h
      obtain ⟨rfl, hrest⟩ := ParamDecl.tokens_inj h
      obtain ⟨rfl, rfl⟩ := ih hrest
      exact ⟨rfl, rfl⟩

theorem ParamDecl.listTokens_inj {ps qs : List ParamDecl} {xs ys : List Token}
    (h : ParamDecl.listTokens ps ++ .char ')' :: xs = ParamDecl.listTokens qs ++ .char ')' :: ys) :
    ps = qs ∧ xs = ys := by
  have hnil : ∀ (q : ParamDecl) (zs : List Token), q.tokens ++ zs ≠ .char ')' :: xs ∧
      q.tokens ++ zs ≠ .char ')' :: ys := by
    rintro ⟨_ | d, t, n⟩ zs <;> simp [ParamDecl.tokens]
  cases ps with
  | nil =>
    cases qs with
    | nil => simpa [ParamDecl.listTokens] using h
    | cons q qs =>
      rw [ParamDecl.listTokens, ParamDecl.listTokens, List.append_assoc] at h
      exact absurd h.symm (hnil q _).1
  | cons p ps =>
    cases qs with
    | nil =>
      rw [ParamDecl.listTokens, ParamDecl.listTokens, List.append_assoc] at h
      exact absurd h (hnil p _).2
    | cons q qs =>
      rw [ParamDecl.listTokens, ParamDecl.listTokens, List.append_assoc, List.append_assoc] at h
      obtain ⟨rfl, hrest⟩ := ParamDecl.tokens_inj h
      obtain ⟨rfl, rfl⟩ := ParamDecl.more_inj hrest
      exact ⟨rfl, rfl⟩

theorem FuncDecl.tokens_inj {f f' : FuncDecl} {xs ys : List Token}
    (h : f.tokens ++ xs = f'.tokens ++ ys) : f = f' ∧ xs = ys := by
  rcases f with ⟨t, n, ps⟩
  rcases f' with ⟨u, m, qs⟩
  simp only [FuncDecl.tokens, List.cons_append, List.nil_append, List.append_assoc,
    List.cons.injEq, Token.NAME.injEq, true_and] at h
  obtain ⟨rfl, rfl, h⟩ := h
  obtain ⟨rfl, hrest⟩ := ParamDecl.listTokens_inj h
  exact ⟨rfl, (List.cons.inj hrest).2⟩

theorem FuncDecl.flatMap_tokens_inj {fs gs : List FuncDecl} {xs ys : List Token}
    (h : fs.flatMap FuncDecl.tokens ++ .char '}' :: xs =
      gs.flatMap FuncDecl.tokens ++ .char '}' :: ys) : fs = gs ∧ xs = ys := by
  induction fs generalizing gs with
  | nil =>
    cases gs with
    | nil => simpa using h
    | cons f gs => simp [FuncDecl.tokens] at h
  | cons f fs ih =>
    cases gs with
    | nil => simp [FuncDecl.tokens] at h
    | cons f' gs =>
      rw [List.flatMap_cons, List.flatMap_cons, List.append_assoc, List.append_assoc] at h
      obtain ⟨rfl, hrest⟩ := FuncDecl.tokens_inj h
      obtain ⟨rfl, rfl⟩ := ih hrest
      exact ⟨rfl, rfl⟩

/-- Two interfaces are never written alike. -/
theorem IfaceDecl.tokens_inj {d e : IfaceDecl} (h : d.tokens = e.tokens) : d = e := by
  rcases d with ⟨n, fs, hfs⟩
  rcases e with ⟨m, gs, hgs⟩
  simp only [IfaceDecl.tokens, IfaceDecl.tail, List.cons_append, List.nil_append,
    List.cons.injEq, Token.NAME.injEq, true_and] at h
  obtain ⟨rfl, hfuncs⟩ := h
  obtain ⟨rfl, -⟩ := FuncDecl.flatMap_tokens_inj hfuncs
  rfl

/-! ### What a call has read -/

/-- Symbols that a state has read of its first rule. -/
def State.past (q : State) : List (Symbol Kind Nonterm) :=
  match q.items.head? with
  | some (r, n) => r.rhs.take n
  | none => []

theorem parser_sound : parser.Sound State.past := by
  constructor
  · rfl
  · intro q X q' h
    change State.next q X = some q' at h
    unfold State.next at h
    split at h <;> first | cases h; decide | cases h
  · intro q r h
    change State.mode q = .reduce r at h
    show r.rhs <:+ State.past q
    cases q <;> cases h <;> decide

theorem next_ne_start (q : State) (X : Symbol Kind Nonterm) : State.next q X ≠ some .start := by
  intro h
  unfold State.next at h
  split at h <;> cases h

/-- Nothing is read where the parser starts. -/
theorem reads_start {ts : List Token} {g₀ g : Globals} {stack : List (State × YYSTYPE)}
    (h : parser.Reads ts g₀ stack g) (htop : parser.top stack = .start) : ts = [] ∧ g = g₀ := by
  obtain ⟨Xs, qs, vs, hw, rfl, hd⟩ := h
  rw [Parser.top_zip ((Parser.length_walk hw).trans hd.length_eq.symm)] at htop
  induction Xs using List.reverseRecOn with
  | nil =>
    cases hd
    exact ⟨rfl, rfl⟩
  | append_singleton Xs X _ =>
    rw [Parser.walk_append] at hw
    obtain ⟨ps, -, hw⟩ := Option.bind_eq_some_iff.mp hw
    obtain ⟨rs, hrs, rfl⟩ := Option.map_eq_some_iff.mp hw
    obtain ⟨q, hn, hq⟩ := Option.bind_eq_some_iff.mp hrs
    cases hq
    rw [List.getLastD_concat] at htop
    rw [htop] at hn
    exact absurd hn (next_ne_start _ _)

/-- Where an interface is added, the call has read this interface and nothing else. -/
theorem reads_interface {ts : List Token} {g₀ g : Globals} {stack : List (State × YYSTYPE)}
    (h : parser.Reads ts g₀ stack g) (hm : State.mode (parser.top stack) = .reduce .interface)
    (src : Scanner) :
    ∃ d : IfaceDecl, ts = d.tokens ∧ g.ifaceList = g₀.ifaceList ∧
      ∃ stack', parser.step (.parsing src stack g) = some (.parsing src stack' (d.run g₀)) := by
  obtain ⟨ts₁, ts₂, g₁, below, qs, vs, rfl, hb, hw, rfl, hd⟩ := parser_sound.split h hm
  have hbelow : parser.top below = .start := by
    obtain ⟨q, hn, -⟩ := Option.bind_eq_some_iff.mp hw
    change State.next (parser.top below) (.terminal .INTERFACE) = some q at hn
    revert hn
    cases parser.top below <;> simp [State.next]
  obtain ⟨rfl, rfl⟩ := reads_start hb hbelow
  have hn : parser.next (parser.top below) (.nonterminal (parser.lhs .interface)) =
      some .interface := by
    rw [hbelow]
    rfl
  obtain ⟨d, hts, hg⟩ := writes_rule .interface ts₂ vs g₁ g (hd.means writes_rule)
  refine ⟨d, hts, ?_, (.interface, (grammar.act .interface vs g).1) :: below, ?_⟩
  · have hl := congrArg Globals.ifaceList hg
    rw [ifaceList_run] at hl
    exact (List.append_inj' hl rfl).1
  · rw [← hg, Parser.step_reduce src g hm]
    exact congrArg some (Parser.reduce_push (P := parser) src below g Rule.interface
      (Parser.length_walk hw) hd.length_eq hn)

/-! ### Calls one after the other -/

/-- A parser at work or between two calls, with the lists as they were before the call and the
tokens that the call has read. -/
structure Calls where
  conf : Conf State Scanner YYSTYPE Globals
  before : Globals
  read : List Token

/-- The lists as they are. -/
def lists : Conf State Scanner YYSTYPE Globals → Globals
  | .parsing _ _ g => g
  | .returned _ _ g => g

/-- Tokens that a step takes from the scanner. -/
def lexed : Conf State Scanner YYSTYPE Globals → List Token
  | .parsing src stack _ => parser.taken src stack
  | .returned .. => []

/-- The parser goes on, or is called. A call finds the scanner anywhere: behind the last token, or
in another file. -/
inductive Label where
  | step
  | call (src : Scanner)

namespace Calls

/-- The first call. -/
def start (src : Scanner) : Calls :=
  { conf := .parsing src [] ⟨[], [], []⟩, before := ⟨[], [], []⟩, read := [] }

def machine : Machine Calls Label where
  init c := ∃ src, c = start src
  step c
    | .step => (parser.step c.conf).map fun conf ↦
      { conf, before := c.before, read := c.read ++ lexed c.conf }
    | .call src =>
      match c.conf with
      | .parsing .. => none
      | .returned _ _ g => some { conf := .parsing src [] g, before := g, read := [] }

/-- An interface that comes to the list has exactly the functions, and these exactly the
parameters, that were written in it: the tokens of the call are those of this interface. -/
def Keeps (c : Calls) (l : Label) : Prop :=
  ∀ c' i, machine.step c l = some c' →
    (lists c'.conf).ifaceList = (lists c.conf).ifaceList ++ [i] →
      ∃ d : IfaceDecl, d.tokens = c.read ∧ d.iface = i

/-- The next step adds an interface. -/
def Adds (c : Calls) : Prop :=
  ∃ src stack g, c.conf = .parsing src stack g ∧
    State.mode (parser.top stack) = .reduce .interface

/-- Where an interface is added, earlier calls had left nothing in the lists that it would take. -/
def Careful (c : Calls) : Label → Prop
  | .step => Adds c → ∀ d : IfaceDecl, d.tokens = c.read → Clean c.before d
  | .call _ => True

/-- What is on the stack has been read since the call. -/
def Faithful (c : Calls) : Prop :=
  ∀ src stack g, c.conf = .parsing src stack g → parser.Reads c.read c.before stack g

theorem faithful_start (src : Scanner) : Faithful (start src) := by
  rintro _ _ _ ⟨⟩
  exact Parser.reads_nil _

theorem faithful_step {c c' : Calls} {l : Label} (h : Faithful c)
    (hs : machine.step c l = some c') : Faithful c' := by
  cases l with
  | step =>
    obtain ⟨conf, hconf, rfl⟩ := Option.map_eq_some_iff.mp hs
    rintro src' stack' g' rfl
    cases hc : c.conf with
    | returned ok src g =>
      rw [hc] at hconf
      cases hconf
    | parsing src stack g =>
      rw [hc] at hconf
      exact parser_sound.step (h src stack g hc) hconf
  | call src =>
    cases hc : c.conf with
    | parsing src' stack g =>
      simp only [machine, hc] at hs
      cases hs
    | returned ok src' g =>
      simp only [machine, hc] at hs
      cases hs
      rintro _ _ _ ⟨⟩
      exact Parser.reads_nil _

/-- Where the parser reduces by the rule of an interface, it adds this interface with all that the
lists had before the call. -/
theorem step_adds {c : Calls} (h : Faithful c) (ha : Adds c) :
    ∃ (c' : Calls) (d : IfaceDecl), machine.step c .step = some c' ∧ d.tokens = c.read ∧
      (lists c'.conf).ifaceList = (lists c.conf).ifaceList ++
        [{ name := d.name, funcs := c.before.funcList ++ taken c.before.paramList d.funcs }] := by
  obtain ⟨src, stack, g, hc, hm⟩ := ha
  obtain ⟨d, hts, hg, stack', hstep⟩ := reads_interface (h src stack g hc) hm src
  have hs : machine.step c .step = some
      { conf := .parsing src stack' (d.run c.before)
        before := c.before
        read := c.read ++ lexed c.conf } := by
    show (parser.step c.conf).map _ = _
    rw [hc, hstep]
    rfl
  refine ⟨_, d, hs, hts.symm, ?_⟩
  rw [hc]
  show (d.run c.before).ifaceList = g.ifaceList ++ _
  rw [ifaceList_run, hg]

theorem lists_reduce (src : Scanner) (stack : List (State × YYSTYPE)) (g : Globals) (r : Rule) :
    ∃ vs, lists (parser.reduce src stack g r) = r.act vs g := by
  refine ⟨(stack.take r.rhs.length).reverse.map Prod.snd, ?_⟩
  rw [Parser.reduce]
  dsimp only
  split <;> rfl

/-- Nothing else adds an interface. -/
theorem step_same {c c' : Calls} {l : Label} (hs : machine.step c l = some c')
    (hn : l = .step → ¬Adds c) : (lists c'.conf).ifaceList = (lists c.conf).ifaceList := by
  cases l with
  | call src =>
    cases hc : c.conf with
    | parsing src' stack g =>
      simp only [machine, hc] at hs
      cases hs
    | returned ok src' g =>
      simp only [machine, hc] at hs
      cases hs
      rfl
  | step =>
    obtain ⟨conf, hconf, rfl⟩ := Option.map_eq_some_iff.mp hs
    cases hc : c.conf with
    | returned ok src g =>
      rw [hc] at hconf
      cases hconf
    | parsing src stack g =>
      rw [hc, Parser.step] at hconf
      cases hm : parser.mode (parser.top stack) with
      | accept =>
        rw [hm] at hconf
        cases hconf
        rfl
      | shift =>
        rw [hm] at hconf
        cases hconf
        rw [Parser.shift]
        split <;> rfl
      | reduce r =>
        rw [hm] at hconf
        cases hconf
        obtain ⟨vs, hl⟩ := lists_reduce src stack g r
        rw [hl]
        cases r with
        | interface => exact absurd ⟨src, stack, g, hc, hm⟩ (hn rfl)
        | _ => rfl

theorem keeps_iff_careful {c : Calls} (h : Faithful c) (l : Label) : Keeps c l ↔ Careful c l := by
  have hsame : (l = .step → ¬Adds c) → Keeps c l := by
    intro hn c' i hs hi
    rw [step_same hs hn] at hi
    exact absurd hi (by simp)
  cases l with
  | call src => exact iff_of_true (hsame fun hl ↦ by cases hl) trivial
  | step =>
    by_cases ha : Adds c
    · obtain ⟨c', d, hs, hd, hl⟩ := step_adds h ha
      have honly : ∀ e : IfaceDecl, e.tokens = c.read → e = d :=
        fun e he ↦ IfaceDecl.tokens_inj (he.trans hd.symm)
      constructor
      · intro hk _ e he
        obtain ⟨d', hd', hi⟩ := hk c' _ hs hl
        rw [honly d' hd'] at hi
        rw [honly e he]
        exact (clean_iff c.before d).mp hi.symm
      · intro hcare c'' i hs' hi
        rw [hs] at hs'
        cases hs'
        rw [hl] at hi
        have he : _ = i := List.singleton_inj.mp (List.append_cancel_left hi)
        exact ⟨d, hd, ((clean_iff c.before d).mpr (hcare ha d hd)).symm.trans he⟩
    · exact iff_of_true (hsame fun _ ↦ ha) fun ha' ↦ absurd ha' ha

/-! ### The loop over files -/

variable {feof : Scanner → Bool}

/-- The loop calls the parser or lets it go on. -/
theorem exists_step {c : Calls} {conf : Conf State Scanner YYSTYPE Globals}
    (h : mainStep feof c.conf = some conf) :
    ∃ l c', machine.step c l = some c' ∧ c'.conf = conf := by
  cases hc : c.conf with
  | parsing src stack g =>
    rw [hc] at h
    change parser.step (.parsing src stack g) = some conf at h
    rw [← hc] at h
    exact ⟨.step, _, congrArg (Option.map _) h, rfl⟩
  | returned ok src g =>
    rw [hc] at h
    obtain ⟨-, he⟩ := Option.ite_none_left_eq_some.mp h
    cases he
    refine ⟨.call src, { conf := .parsing src [] g, before := g, read := [] }, ?_, rfl⟩
    simp only [machine, hc]

theorem exists_run {c : Calls} {conf : Conf State Scanner YYSTYPE Globals}
    (h : StateTransition.Reaches (mainStep feof) c.conf conf) :
    ∃ ls c', machine.run c ls = some c' ∧ c'.conf = conf := by
  generalize hc : c.conf = first at h
  induction h using Relation.ReflTransGen.head_induction_on generalizing c with
  | refl => exact ⟨[], c, rfl, hc⟩
  | head hs _ ih =>
    cases hc
    obtain ⟨l, c', hl, hc'⟩ := exists_step hs
    obtain ⟨ls, c'', hrun, he⟩ := ih hc'
    exact ⟨l :: ls, c'', (Machine.run_cons hl).trans hrun, he⟩

/-- Where the compiler may be on the scanners of a list of files, with the lists it begins with;
`tools/cfxidl/cfxidl.cpp:93–106`. -/
inductive Working (feof : Scanner → Bool) :
    Globals → List Scanner → Conf State Scanner YYSTYPE Globals → Prop where
  | file {g : Globals} {s : Scanner} {ss : List Scanner}
      {conf : Conf State Scanner YYSTYPE Globals} :
      StateTransition.Reaches (mainStep feof) (.parsing s [] g) conf → Working feof g (s :: ss) conf
  | next {g g' : Globals} {s s' : Scanner} {ss : List Scanner} {ok : Bool}
      {conf : Conf State Scanner YYSTYPE Globals} :
      StateTransition.Reaches (mainStep feof) (.parsing s [] g) (.returned ok s' g') →
      feof s' → Working feof g' ss conf → Working feof g (s :: ss) conf

theorem Working.exists_run_of {g : Globals} {ss : List Scanner}
    {conf : Conf State Scanner YYSTYPE Globals} (h : Working feof g ss conf) {c : Calls}
    (hc : ∃ s, ss.head? = some s ∧ c.conf = .parsing s [] g) :
    ∃ ls c', machine.run c ls = some c' ∧ c'.conf = conf := by
  induction h generalizing c with
  | file hr =>
    obtain ⟨s, hs, hc⟩ := hc
    cases hs
    rw [← hc] at hr
    exact exists_run hr
  | @next g g' _ s' ss ok conf hr hfeof hw ih =>
    obtain ⟨s, hs, hc⟩ := hc
    cases hs
    rw [← hc] at hr
    obtain ⟨ls, c₁, hrun, hc₁⟩ := exists_run hr
    obtain ⟨t, ht⟩ : ∃ t, ss.head? = some t := by
      cases hw <;> exact ⟨_, rfl⟩
    obtain ⟨ls', c₂, hrun', hc₂⟩ :=
      ih (c := { conf := .parsing t [] g', before := g', read := [] }) ⟨t, ht, rfl⟩
    refine ⟨ls ++ .call t :: ls', c₂, ?_, hc₂⟩
    have hcall : machine.step c₁ (.call t) =
        some { conf := .parsing t [] g', before := g', read := [] } := by
      simp only [machine, hc₁]
    rw [Machine.run_append hrun, Machine.run_cons hcall, hrun']

/-- Wherever the compiler gets to on a list of files, calls one after the other get to. -/
theorem Working.exists_run {s : Scanner} {ss : List Scanner}
    {conf : Conf State Scanner YYSTYPE Globals} (h : Working feof ⟨[], [], []⟩ (s :: ss) conf) :
    ∃ ls c, machine.run (start s) ls = some c ∧ c.conf = conf :=
  h.exists_run_of ⟨s, rfl, rfl⟩

/-! ### What a call that is cut short leaves -/

/-- Behind some functions of an interface the parser wants another one, or the end of the interface,
and has the functions in the list. -/
theorem reaches_funcs (n : String) (fs : List FuncDecl) (g : Globals) {s s' : Scanner}
    (hs : Delivers yylex s ([.INTERFACE, .NAME n, .char '{'] ++ fs.flatMap FuncDecl.tokens) s') :
    ∃ stack, (parser.top stack = .ifaceOpen ∨ parser.top stack = .ifaceFuncs) ∧
      StateTransition.Reaches parser.step (.parsing s [] g)
        (.parsing s' stack (fs.foldl FuncDecl.run g)) := by
  by_cases hfs : fs = []
  · subst hfs
    have hd := derives_token .INTERFACE (derives_token (.NAME n) (derives_token (.char '{')
      (derives_nil g)))
    have hw : parser.walk (parser.top ([] : List (State × YYSTYPE)))
        [.terminal .INTERFACE, .terminal .NAME, .terminal (.char '{')] =
      some [.INTERFACE, .ifaceName, .ifaceOpen] := rfl
    exact ⟨_, .inl rfl, parser_consistent.reaches hd hw hs⟩
  · obtain ⟨v, hv⟩ := collects_funcDeclList hfs g
    have hd := derives_token .INTERFACE (derives_token (.NAME n) (derives_token (.char '{') hv))
    have hw : parser.walk (parser.top ([] : List (State × YYSTYPE)))
        [.terminal .INTERFACE, .terminal .NAME, .terminal (.char '{'),
          .nonterminal .funcDeclList] =
      some [.INTERFACE, .ifaceName, .ifaceOpen, .ifaceFuncs] := rfl
    exact ⟨_, .inr rfl, parser_consistent.reaches hd hw hs⟩

/-- A call that is cut short behind functions leaves them in the list. -/
theorem cut_funcs (n : String) (fs : List FuncDecl) (g : Globals) {s s₁ s' : Scanner} {t : Token}
    (hs : Delivers yylex s ([.INTERFACE, .NAME n, .char '{'] ++ fs.flatMap FuncDecl.tokens) s₁)
    (hl : yylex s₁ = (t, s')) (hname : t.kind ≠ .NAME) (hbrace : t.kind ≠ .char '}') :
    StateTransition.Reaches parser.step (.parsing s [] g)
      (.returned false s' (fs.foldl FuncDecl.run g)) := by
  obtain ⟨stack, htop, hr⟩ := reaches_funcs n fs g hs
  apply hr.tail
  apply Parser.step_error hl
  · show State.mode (parser.top stack) = .shift
    rcases htop with h | h <;> rw [h] <;> rfl
  · show State.next (parser.top stack) (.terminal t.kind) = none
    rcases htop with h | h <;> rw [h] <;> unfold State.next <;> split <;> simp_all

/-- A call that is cut short behind parameters leaves these as well. -/
theorem cut_params (n type name : String) (fs : List FuncDecl) {ps : List ParamDecl} (hps : ps ≠ [])
    (g : Globals) {s s₁ s₂ s' : Scanner} {t : Token}
    (hs : Delivers yylex s ([.INTERFACE, .NAME n, .char '{'] ++ fs.flatMap FuncDecl.tokens) s₁)
    (hs₁ : Delivers yylex s₁ ([.NAME type, .NAME name, .char '('] ++ ParamDecl.listTokens ps) s₂)
    (hl : yylex s₂ = (t, s')) (hcomma : t.kind ≠ .char ',') (hparen : t.kind ≠ .char ')') :
    StateTransition.Reaches parser.step (.parsing s [] g)
      (.returned false s' { fs.foldl FuncDecl.run g with
        paramList := (fs.foldl FuncDecl.run g).paramList ++ ps.map ParamDecl.param }) := by
  obtain ⟨stack, htop, hr⟩ := reaches_funcs n fs g hs
  obtain ⟨p, ps, rfl⟩ := List.exists_cons_of_ne_nil hps
  obtain ⟨v, hv⟩ := collects_paramList p ps (fs.foldl FuncDecl.run g)
  have hd := derives_token (.NAME type) (derives_token (.NAME name) (derives_token (.char '(') hv))
  have hw : parser.walk (parser.top stack) [.terminal .NAME, .terminal .NAME,
      .terminal (.char '('), .nonterminal .paramList] =
    some [.funcType, .funcName, .funcOpen, .funcParams] := by
    rcases htop with h | h <;> rw [h] <;> rfl
  apply (hr.trans (parser_consistent.reaches hd hw hs₁)).tail
  apply Parser.step_error hl rfl
  show State.next .funcParams (.terminal t.kind) = none
  unfold State.next
  split <;> simp_all

/-- With functions left in the list no interface comes as it is written. -/
theorem not_clean_of_cut {fs : List FuncDecl} (hfs : fs ≠ []) (g : Globals) (d : IfaceDecl) :
    ¬Clean (fs.foldl FuncDecl.run g) d := by
  rintro ⟨h, -⟩
  have hlen := congrArg List.length h
  rw [funcList_foldl, List.length_append, length_taken, List.length_nil] at hlen
  have hpos := List.length_pos_of_ne_nil hfs
  omega

/-- From the first call on, whatever the scanner delivers and wherever calls are cut short: all
interfaces are as they were written exactly if each comes to lists in which earlier calls have left
nothing that it would take. -/
theorem calls_keep_iff (src : Scanner) (ls : List Label) :
    machine.Along Keeps (start src) ls ↔ machine.Along Careful (start src) ls :=
  Machine.along_congr (I := Faithful) (fun _ l h ↦ keeps_iff_careful h l)
    (fun _ _ _ h _ hs ↦ faithful_step h hs) (faithful_start src) ls

/-- `interface A { void f(); void` is cut short at its end, and `interface B { void g(); }` in the
next file has both functions. -/
theorem calls_not_keep : ¬∀ (src : Scanner) (ls : List Label),
    machine.Along Keeps (start src) ls := by
  intro h
  have hd : ((machine.run (start ⟨"interface A \x7b void f(); void".toList, false⟩)
      (List.replicate 12 .step ++ .call ⟨"interface B \x7b void g(); \x7d".toList, false⟩ ::
        List.replicate 11 .step)).bind fun c ↦ (machine.step c .step).map fun c' ↦
          (c.read, (lists c.conf).ifaceList, (lists c'.conf).ifaceList)) =
      some (ifaceB.tokens, [], [{ name := "B", funcs := [
        { type := "void", name := "f", params := [] },
        { type := "void", name := "g", params := [] }] }]) := by
    decide +kernel
  obtain ⟨c, hrun, hd⟩ := Option.bind_eq_some_iff.mp hd
  obtain ⟨c', hstep, hd⟩ := Option.map_eq_some_iff.mp hd
  simp only [Prod.mk.injEq] at hd
  obtain ⟨hread, hbefore, hafter⟩ := hd
  have hk := Machine.along_last (h _ (_ ++ [.step])) hrun
  rw [Keeps] at hk
  obtain ⟨d, hd, hi⟩ := hk c' _ hstep (by rw [hafter, hbefore]; rfl)
  rw [hread] at hd
  rw [IfaceDecl.tokens_inj hd] at hi
  exact absurd hi (by decide)

end Calls
end CtrlrFx.Idl
