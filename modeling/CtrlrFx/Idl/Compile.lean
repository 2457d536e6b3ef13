import CtrlrFx.Idl.Parser

/-!
# Files of interfaces

What the parser makes of a file with interfaces one after another. It accepts one interface and
then wants the end of the file, so that the word `interface` that follows is lost, and with it
the interface that it begins.
-/

namespace CtrlrFx.Idl
open Base LR StateTransition

/-! ### Interfaces as they are written -/

/-- A parameter, with a direction or without. -/
structure ParamDecl where
  dir : Option Dir
  type : String
  name : String
  deriving DecidableEq, Repr

structure FuncDecl where
  type : String
  name : String
  params : List ParamDecl
  deriving DecidableEq, Repr

/-- An interface has a function. -/
structure IfaceDecl where
  name : String
  funcs : List FuncDecl
  funcs_ne_nil : funcs ≠ []
  deriving DecidableEq, Repr

namespace ParamDecl

def tokens (p : ParamDecl) : List Token :=
  p.dir.toList.map Token.DIR ++ [.NAME p.type, .NAME p.name]

def param (p : ParamDecl) : Param := { type := p.type, name := p.name, dir := p.dir.getD .IN }

/-- Parameters with commas between them. -/
def listTokens : List ParamDecl → List Token
  | [] => []
  | p :: ps => p.tokens ++ ps.flatMap fun p ↦ .char ',' :: p.tokens

end ParamDecl

namespace FuncDecl

def tokens (f : FuncDecl) : List Token :=
  [.NAME f.type, .NAME f.name, .char '('] ++ ParamDecl.listTokens f.params ++
    [.char ')', .char ';']

def func (f : FuncDecl) : Func :=
  { type := f.type, name := f.name, params := f.params.map ParamDecl.param }

end FuncDecl

namespace IfaceDecl

/-- What follows the word `interface`. -/
def tail (i : IfaceDecl) : List Token :=
  [.NAME i.name, .char '{'] ++ i.funcs.flatMap FuncDecl.tokens ++ [.char '}']

def tokens (i : IfaceDecl) : List Token := .INTERFACE :: i.tail

def iface (i : IfaceDecl) : Iface := { name := i.name, funcs := i.funcs.map FuncDecl.func }

end IfaceDecl

/-! ### What the actions do -/

/-- A function takes all parameters that are in the list, if it has one itself. -/
def FuncDecl.run (g : Globals) (f : FuncDecl) : Globals :=
  if f.params = [] then { g with funcList := g.funcList ++ [f.func] }
  else
    { g with
      paramList := []
      funcList := g.funcList ++ [{ f.func with params := g.paramList ++ f.func.params }] }

/-- An interface takes all functions that are in the list. -/
def IfaceDecl.run (g : Globals) (d : IfaceDecl) : Globals :=
  let g' := d.funcs.foldl FuncDecl.run g
  { g' with
    funcList := []
    ifaceList := g'.ifaceList ++ [{ name := d.name, funcs := g'.funcList }] }

/-- Without a parameter in the list the functions come as they are written. -/
theorem foldl_run (fs : List FuncDecl) {g : Globals} (hg : g.paramList = []) :
    fs.foldl FuncDecl.run g = { g with funcList := g.funcList ++ fs.map FuncDecl.func } := by
  induction fs generalizing g with
  | nil => simp
  | cons f fs ih =>
    have hrun : f.run g = { g with funcList := g.funcList ++ [f.func] } := by
      by_cases hf : f.params = [] <;> simp [FuncDecl.run, hf, hg]
    have hfs := ih (g := { g with funcList := g.funcList ++ [f.func] }) hg
    rw [List.foldl_cons, hrun, hfs]
    simp

theorem run_of_nil (d : IfaceDecl) {g : Globals} (hp : g.paramList = []) (hf : g.funcList = []) :
    d.run g = { g with ifaceList := g.ifaceList ++ [d.iface] } := by
  rcases g with ⟨_, _, is⟩
  cases hp
  cases hf
  rw [IfaceDecl.run, foldl_run d.funcs rfl]
  rfl

/-- Behind the word `interface` there is no other one until the next interface. -/
theorem IfaceDecl.tail_ne_interface (i : IfaceDecl) : ∀ t ∈ i.tail, t ≠ .INTERFACE := by
  have hlist : ∀ ps, Token.INTERFACE ∉ ParamDecl.listTokens ps := by
    intro ps
    cases ps with
    | nil => exact List.not_mem_nil
    | cons p ps => simp [ParamDecl.listTokens, ParamDecl.tokens]
  rintro _ ht rfl
  simp [IfaceDecl.tail, FuncDecl.tokens, hlist] at ht

/-! ### What the actions collect -/

/-- A symbol stands for tokens, and its actions lead from one state of the lists to another. -/
def Collects (N : Nonterm) (ts : List Token) (g g' : Globals) : Prop :=
  ∃ v, Derives grammar [.nonterminal N] ts [v] g g'

/-- A token before other symbols. -/
theorem derives_token {Xs : List (Symbol Kind Nonterm)} {ts : List Token} {vs : List YYSTYPE}
    {g g' : Globals} (t : Token) (h : Derives grammar Xs ts vs g g') :
    Derives grammar (.terminal t.kind :: Xs) (t :: ts) (t.value :: vs) g g' :=
  .token t h

theorem derives_nil (g : Globals) : Derives grammar [] [] [] g g := .nil g

theorem collects_rule (r : Rule) {ts : List Token} {vs : List YYSTYPE} {g g' : Globals}
    (h : Derives grammar r.rhs ts vs g g') : Collects r.lhs ts g (r.act vs g') :=
  ⟨_, Derives.single r h⟩

/-- A parameter is added to the list. -/
theorem collects_param (p : ParamDecl) (g : Globals) :
    Collects .param p.tokens g { g with paramList := g.paramList ++ [p.param] } := by
  rcases p with ⟨_ | d, type, name⟩
  · exact collects_rule .param
      (derives_token (.NAME type) (derives_token (.NAME name) (derives_nil g)))
  · exact collects_rule .paramDir
      (derives_token (.DIR d) (derives_token (.NAME type) (derives_token (.NAME name)
        (derives_nil g))))

theorem collects_paramList (p : ParamDecl) (ps : List ParamDecl) (g : Globals) :
    Collects .paramList (ParamDecl.listTokens (p :: ps)) g
      { g with paramList := g.paramList ++ (p :: ps).map ParamDecl.param } := by
  induction ps using List.reverseRecOn with
  | nil =>
    rcases collects_param p g with ⟨v, hv⟩
    have h := collects_rule .paramFirst hv
    simp only [ParamDecl.listTokens, List.flatMap_nil, List.append_nil]
    exact h
  | append_singleton ps q ih =>
    rcases ih with ⟨v, hv⟩
    rcases collects_param q { g with paramList := g.paramList ++ (p :: ps).map ParamDecl.param }
      with ⟨w, hw⟩
    have h := collects_rule .paramNext (hv.append (derives_token (.char ',') hw))
    have ht : ParamDecl.listTokens (p :: (ps ++ [q])) =
        ParamDecl.listTokens (p :: ps) ++ .char ',' :: q.tokens := by
      simp [ParamDecl.listTokens]
    have hp : g.paramList ++ (p :: (ps ++ [q])).map ParamDecl.param =
        g.paramList ++ (p :: ps).map ParamDecl.param ++ [q.param] := by
      simp
    rw [ht, hp]
    exact h

theorem collects_funcDecl (f : FuncDecl) (g : Globals) :
    Collects .funcDecl f.tokens g (f.run g) := by
  rcases f with ⟨type, name, params⟩
  cases params with
  | nil =>
    exact collects_rule .funcDeclEmpty (derives_token (.NAME type) (derives_token (.NAME name)
      (derives_token (.char '(') (derives_token (.char ')') (derives_token (.char ';')
        (derives_nil _))))))
  | cons p ps =>
    rcases collects_paramList p ps g with ⟨v, hv⟩
    have hend := hv.append (derives_token (.char ')') (derives_token (.char ';') (derives_nil _)))
    have h := collects_rule .funcDecl (derives_token (.NAME type) (derives_token (.NAME name)
      (derives_token (.char '(') hend)))
    have ht : FuncDecl.tokens ⟨type, name, p :: ps⟩ = .NAME type :: .NAME name :: .char '(' ::
        (ParamDecl.listTokens (p :: ps) ++ [.char ')', .char ';']) := by
      simp [FuncDecl.tokens]
    rw [ht]
    exact h

theorem collects_funcDeclList {fs : List FuncDecl} (hfs : fs ≠ []) (g : Globals) :
    Collects .funcDeclList (fs.flatMap FuncDecl.tokens) g (fs.foldl FuncDecl.run g) := by
  induction fs using List.reverseRecOn with
  | nil => exact absurd rfl hfs
  | append_singleton fs f ih =>
    rw [List.flatMap_append, List.flatMap_singleton, List.foldl_append]
    by_cases he : fs = []
    · cases he
      rcases collects_funcDecl f g with ⟨v, hv⟩
      exact collects_rule .funcDeclFirst hv
    · rcases ih he with ⟨v, hv⟩
      rcases collects_funcDecl f (fs.foldl FuncDecl.run g) with ⟨w, hw⟩
      exact collects_rule .funcDeclNext (hv.append hw)

theorem collects_interface (i : IfaceDecl) (g : Globals) :
    Collects .interface i.tokens g (i.run g) := by
  rcases i with ⟨name, fs, hfs⟩
  rcases collects_funcDeclList hfs g with ⟨v, hv⟩
  have hend := hv.append (derives_token (.char '}') (derives_nil _))
  have h := collects_rule .interface (derives_token .INTERFACE (derives_token (.NAME name)
    (derives_token (.char '{') hend)))
  have ht : IfaceDecl.tokens ⟨name, fs, hfs⟩ = .INTERFACE :: .NAME name :: .char '{' ::
      (fs.flatMap FuncDecl.tokens ++ [.char '}']) := by
    simp [IfaceDecl.tokens, IfaceDecl.tail]
  rw [ht]
  exact h

/-! ### Calls of the parser -/

theorem delivers_of_spells {ts ts' : List Token} {cs : List Char} (h : Spells (ts ++ ts') cs)
    (ended : Bool) : ∃ cs', Delivers yylex ⟨cs, ended⟩ ts ⟨cs', ended⟩ ∧ Spells ts' cs' := by
  induction ts generalizing cs with
  | nil => exact ⟨cs, .nil _, h⟩
  | cons t ts ih =>
    rcases h.yylex_cons ended with ⟨cs₁, hl, h₁⟩
    rcases ih h₁ with ⟨cs', hd, h'⟩
    exact ⟨cs', .cons hl hd, h'⟩

/-- The parser reads an interface and has it in the list before it looks at what follows. -/
theorem reaches_run (i : IfaceDecl) (g : Globals) {s s' : Scanner}
    (hs : Delivers yylex s i.tokens s') :
    ∃ v, Reaches parser.step (.parsing s [] g) (.parsing s' [(.interface, v)] (i.run g)) := by
  rcases collects_interface i g with ⟨v, hv⟩
  have hw : parser.walk (parser.top ([] : List (State × YYSTYPE))) [.nonterminal .interface] =
      some [.interface] := rfl
  exact ⟨v, parser_consistent.reaches hv hw hs⟩

theorem reaches_interface (i : IfaceDecl) {g : Globals} (hp : g.paramList = [])
    (hf : g.funcList = []) {s s' : Scanner} (hs : Delivers yylex s i.tokens s') :
    ∃ v, Reaches parser.step (.parsing s [] g)
      (.parsing s' [(.interface, v)] { g with ifaceList := g.ifaceList ++ [i.iface] }) := by
  rw [← run_of_nil i hp hf]
  exact reaches_run i g hs

/-- Only `interface` begins anything. -/
theorem step_start {t : Token} (ht : t ≠ .INTERFACE) {s s' : Scanner} (hl : yylex s = (t, s'))
    (g : Globals) : parser.step (.parsing s [] g) = some (.returned false s' g) := by
  apply Parser.step_error hl rfl
  show State.next .start (.terminal t.kind) = none
  cases t with
  | INTERFACE => exact absurd rfl ht
  | _ => rfl

/-- Behind an interface the parser wants the end and takes nothing else. -/
theorem step_interface {t : Token} (ht : t ≠ .END) {s s' : Scanner} (hl : yylex s = (t, s'))
    (v : YYSTYPE) (g : Globals) :
    parser.step (.parsing s [(.interface, v)] g) = some (.returned false s' g) := by
  apply Parser.step_error hl rfl
  show State.next .interface (.terminal t.kind) = none
  cases t with
  | END => exact absurd rfl ht
  | _ => rfl

section

variable {feof : Scanner → Bool}

/-- While the parser is at work the loop waits. -/
theorem reaches_main {c c' : Conf State Scanner YYSTYPE Globals} (h : Reaches parser.step c c') :
    Reaches (mainStep feof) c c' := by
  have hmono : ∀ a b, b ∈ parser.step a → b ∈ mainStep feof a := by
    intro a b hab
    cases a with
    | parsing s stack g => exact hab
    | returned ok s g => cases hab
  exact Relation.ReflTransGen.mono hmono _ _ h

theorem main_parsing {s : Scanner} {stack : List (State × YYSTYPE)} {g : Globals}
    {c : Conf State Scanner YYSTYPE Globals} (h : parser.step (.parsing s stack g) = some c) :
    Reaches (mainStep feof) (.parsing s stack g) c :=
  .single h

/-- The loop ends with these lists. -/
def Finishes (feof : Scanner → Bool) (c : Conf State Scanner YYSTYPE Globals) (g : Globals) :
    Prop :=
  ∃ ok s, .returned ok s g ∈ eval (mainStep feof) c

theorem Finishes.of_reaches {c c' : Conf State Scanner YYSTYPE Globals} {g : Globals}
    (hr : Reaches (mainStep feof) c c') (h : Finishes feof c' g) : Finishes feof c g := by
  rcases h with ⟨ok, s, he⟩
  exact ⟨ok, s, by rwa [reaches_eval hr]⟩

theorem finishes_of_feof {ok : Bool} {s : Scanner} {g : Globals} (h : feof s = true) :
    Finishes feof (.returned ok s g) g :=
  ⟨ok, s, mem_eval.mpr ⟨.refl, if_pos h⟩⟩

theorem main_again {s : Scanner} (h : ¬ feof s = true) (ok : Bool) (g : Globals) :
    Reaches (mainStep feof) (.returned ok s g) (.parsing s [] g) :=
  .single (if_neg h)

/-- Two calls of the loop do not differ in what they end with. -/
theorem Finishes.unique {c : Conf State Scanner YYSTYPE Globals} {g g' : Globals}
    (h : Finishes feof c g) (h' : Finishes feof c g') : g = g' := by
  rcases h with ⟨ok, s, he⟩
  rcases h' with ⟨ok', s', he'⟩
  cases Part.mem_unique he he'
  rfl

/-- What begins no interface is lost token by token. -/
theorem skips {ts ts' : List Token} (hts : ∀ t ∈ ts, t ≠ .INTERFACE) {cs : List Char}
    (h : Spells (ts ++ ts') cs) (ok : Bool) (g : Globals) :
    Finishes feof (.returned ok ⟨cs, false⟩ g) g ∨
      ∃ ok' cs', Spells ts' cs' ∧
        Reaches (mainStep feof) (.returned ok ⟨cs, false⟩ g) (.returned ok' ⟨cs', false⟩ g) := by
  induction ts generalizing cs ok with
  | nil => exact .inr ⟨ok, cs, h, .refl⟩
  | cons t ts ih =>
    rcases h.yylex_cons false with ⟨cs₁, hl, h₁⟩
    by_cases he : feof ⟨cs, false⟩ = true
    · exact .inl (finishes_of_feof he)
    · have hr := (main_again he ok g).trans
        (main_parsing (step_start (hts t List.mem_cons_self) hl g))
      rcases ih (fun u hu ↦ hts u (List.mem_cons_of_mem t hu)) h₁ false with
        hf | ⟨ok', cs', h', hr'⟩
      · exact .inl (hf.of_reaches hr)
      · exact .inr ⟨ok', cs', h', hr.trans hr'⟩

/-- Every other element, from the first one on. -/
def odds {α : Type} : List α → List α
  | [] => []
  | [a] => [a]
  | a :: _ :: l => a :: odds l

/-- A file that ends where an interface could begin. -/
theorem reaches_nil {cs : List Char} (h : Spells [] cs) (g : Globals) :
    Reaches (mainStep feof) (.parsing ⟨cs, false⟩ [] g) (.returned false ⟨[], true⟩ g) :=
  main_parsing (step_start (by decide) (h.yylex_nil false) g)

/-- An interface with nothing behind it is accepted. -/
theorem reaches_last (d : IfaceDecl) {cs : List Char} (h : Spells d.tokens cs) {g : Globals}
    (hp : g.paramList = []) (hf : g.funcList = []) :
    Reaches (mainStep feof) (.parsing ⟨cs, false⟩ [] g)
      (.returned true ⟨[], true⟩ { g with ifaceList := g.ifaceList ++ [d.iface] }) := by
  rw [← List.append_nil d.tokens] at h
  rcases delivers_of_spells h false with ⟨cs', hd, h'⟩
  rcases reaches_interface d hp hf hd with ⟨v, hr⟩
  have hshift : parser.step (.parsing ⟨cs', false⟩ [(.interface, v)]
      { g with ifaceList := g.ifaceList ++ [d.iface] }) = _ :=
    parser_consistent.step_shift (h'.yylex_nil false) rfl
  exact (reaches_main hr).trans ((main_parsing hshift).trans (main_parsing rfl))

/-- An interface with another one behind it is kept, and the word `interface` is lost. -/
theorem reaches_lost (d e : IfaceDecl) {ts : List Token} {cs : List Char}
    (h : Spells (d.tokens ++ (e.tokens ++ ts)) cs) {g : Globals} (hp : g.paramList = [])
    (hf : g.funcList = []) :
    ∃ cs', Spells (e.tail ++ ts) cs' ∧ Reaches (mainStep feof) (.parsing ⟨cs, false⟩ [] g)
      (.returned false ⟨cs', false⟩ { g with ifaceList := g.ifaceList ++ [d.iface] }) := by
  rcases delivers_of_spells h false with ⟨cs₁, hd, h₁⟩
  rcases reaches_interface d hp hf hd with ⟨v, hr⟩
  rcases Spells.yylex_cons h₁ false with ⟨cs', hl, h'⟩
  exact ⟨cs', h', (reaches_main hr).trans (main_parsing (step_interface (by decide) hl v _))⟩

/-- The loop ends, and it has kept some of the interfaces that are first, third and so on. -/
theorem finishes (hend : ∀ cs, feof ⟨cs, true⟩ = true) (ds : List IfaceDecl) {cs : List Char}
    (h : Spells (ds.flatMap IfaceDecl.tokens) cs) {g : Globals} (hp : g.paramList = [])
    (hf : g.funcList = []) :
    ∃ j, Finishes feof (.parsing ⟨cs, false⟩ [] g)
      { g with ifaceList := g.ifaceList ++ ((odds ds).take j).map IfaceDecl.iface } ∧
      (ds ≠ [] → 0 < j) := by
  match ds with
  | [] =>
    refine ⟨0, ?_, fun hne ↦ absurd rfl hne⟩
    rw [List.take_zero, List.map_nil, List.append_nil]
    exact .of_reaches (reaches_nil h g) (finishes_of_feof (hend []))
  | [d] =>
    rw [List.flatMap_singleton] at h
    exact ⟨1, .of_reaches (reaches_last d h hp hf) (finishes_of_feof (hend [])),
      fun _ ↦ Nat.one_pos⟩
  | d :: e :: rest =>
    rw [List.flatMap_cons, List.flatMap_cons] at h
    rcases reaches_lost d e h hp hf with ⟨cs₁, h₁, hr₁⟩
    rcases skips e.tail_ne_interface h₁ false _ with hfin | ⟨ok, cs₂, h₂, hr₂⟩
    · exact ⟨1, hfin.of_reaches hr₁, fun _ ↦ Nat.one_pos⟩
    · by_cases he : feof ⟨cs₂, false⟩ = true
      · exact ⟨1, (finishes_of_feof he).of_reaches (hr₁.trans hr₂), fun _ ↦ Nat.one_pos⟩
      · rcases finishes hend rest h₂ (g := { g with ifaceList := g.ifaceList ++ [d.iface] }) hp hf
          with ⟨j, hj, -⟩
        refine ⟨j + 1, ?_, fun _ ↦ Nat.succ_pos j⟩
        rw [List.append_assoc] at hj
        exact hj.of_reaches ((hr₁.trans hr₂).trans (main_again he ok _))

/-- More than half of the elements are never left out at once. -/
theorem length_odds {α : Type} (l : List α) : 2 * (odds l).length ≤ l.length + 1 := by
  match l with
  | [] => exact Nat.zero_le _
  | [a] => exact Nat.le_refl _
  | a :: b :: l =>
    have ih := length_odds l
    simp only [odds, List.length_cons]
    omega

end

/-- A file keeps all its interfaces exactly if it has one. -/
theorem idl_keeps_iff {feof : Scanner → Bool} (hend : ∀ cs, feof ⟨cs, true⟩ = true)
    {ds : List IfaceDecl} (hds : ds ≠ []) {file : List Char}
    (hfile : Spells (ds.flatMap IfaceDecl.tokens) file) :
    ∃ g, Finishes feof (fileStart file) g ∧
      (g.ifaceList = ds.map IfaceDecl.iface ↔ ds.length = 1) := by
  rcases finishes hend ds hfile (g := ⟨[], [], []⟩) rfl rfl with ⟨j, hj, hpos⟩
  refine ⟨_, hj, ?_⟩
  rw [List.nil_append]
  constructor
  · intro he
    have hl := congrArg List.length he
    have ho := length_odds ds
    have hd := List.length_pos_of_ne_nil hds
    rw [List.length_map, List.length_map, List.length_take] at hl
    omega
  · intro hl
    rcases List.length_eq_one_iff.mp hl with ⟨d, rfl⟩
    rw [odds, List.take_of_length_le (hpos hds)]

/-- `interface A { int f(byte x, out int y); }` -/
def ifaceA : IfaceDecl :=
  { name := "A"
    funcs := [{
      type := "int"
      name := "f"
      params := [⟨none, "byte", "x"⟩, ⟨some .OUT, "int", "y"⟩] }]
    funcs_ne_nil := List.cons_ne_nil _ _ }

/-- `interface B { void g(); }` -/
def ifaceB : IfaceDecl :=
  { name := "B"
    funcs := [{ type := "void", name := "g", params := [] }]
    funcs_ne_nil := List.cons_ne_nil _ _ }

/-- A file that is read to its end has its one interface. -/
theorem idl_keeps_iff_one :
    ∃ g, Finishes Scanner.ended (fileStart (write ([ifaceA].flatMap IfaceDecl.tokens))) g ∧
      (g.ifaceList = [ifaceA].map IfaceDecl.iface ↔ [ifaceA].length = 1) :=
  idl_keeps_iff (fun _ ↦ rfl) (List.cons_ne_nil _ _) (spells_write (by decide))

/-- A file that is read to its end has the first of its two interfaces only. -/
theorem idl_not_keeps :
    ¬ ∃ g, Finishes Scanner.ended (fileStart (write ([ifaceA, ifaceB].flatMap IfaceDecl.tokens)))
      g ∧ g.ifaceList = [ifaceA, ifaceB].map IfaceDecl.iface := by
  rintro ⟨g, hg, he⟩
  have hw : Spells ([ifaceA, ifaceB].flatMap IfaceDecl.tokens)
      (write ([ifaceA, ifaceB].flatMap IfaceDecl.tokens)) := spells_write (by decide)
  have hend : ∀ cs, Scanner.ended ⟨cs, true⟩ = true := fun _ ↦ rfl
  rcases finishes hend _ hw (g := ⟨[], [], []⟩) rfl rfl with ⟨j, hj, -⟩
  cases hg.unique hj
  have hl := congrArg List.length he
  have ho := length_odds [ifaceA, ifaceB]
  simp only [List.nil_append, List.length_map, List.length_take, List.length_cons,
    List.length_nil] at hl ho
  omega

end CtrlrFx.Idl
