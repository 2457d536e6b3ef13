import Mathlib.Computability.Language
import Mathlib.Computability.StateTransition

/-!
# Table-driven parsers

A parser shifts the tokens that a source delivers, and reduces what it has shifted by the rules
of a grammar. The action of a rule makes its value from the values of its symbols and changes a
global state. Every state either shifts or reduces, so that no token is read before it is
needed; a token that cannot be shifted is dropped, and the parser returns.
-/

namespace CtrlrFx.Base.LR
open StateTransition

variable {Q S T K N R V G : Type*}

/-- Rules over the kinds of the tokens, and their actions. -/
structure Grammar (T K N R V G : Type*) where
  kind : T → K
  value : T → V
  lhs : R → N
  rhs : R → List (Symbol K N)
  act : R → List V → G → V × G

/-- Symbols stand for tokens and have values; their actions, done in order, lead from one global
state to another. -/
inductive Derives (γ : Grammar T K N R V G) :
    List (Symbol K N) → List T → List V → G → G → Prop where
  | nil (g : G) : Derives γ [] [] [] g g
  | token {Xs : List (Symbol K N)} {ts : List T} {vs : List V} {g g' : G} (t : T) :
      Derives γ Xs ts vs g g' →
      Derives γ (.terminal (γ.kind t) :: Xs) (t :: ts) (γ.value t :: vs) g g'
  | rule {Xs : List (Symbol K N)} {ts ts' : List T} {vs vs' : List V} {g g₁ g' : G} (r : R) :
      Derives γ (γ.rhs r) ts vs g g₁ → Derives γ Xs ts' vs' (γ.act r vs g₁).2 g' →
      Derives γ (.nonterminal (γ.lhs r) :: Xs) (ts ++ ts') ((γ.act r vs g₁).1 :: vs') g g'

namespace Derives

variable {γ : Grammar T K N R V G} {Xs Ys : List (Symbol K N)} {ts ts' : List T}
  {vs vs' : List V} {g g₁ g' : G}

theorem length_eq (h : Derives γ Xs ts vs g g') : vs.length = Xs.length := by
  induction h with
  | nil g => rfl
  | token t _ ih => rw [List.length_cons, List.length_cons, ih]
  | rule r _ _ _ ih => rw [List.length_cons, List.length_cons, ih]

theorem append (h : Derives γ Xs ts vs g g₁) (h' : Derives γ Ys ts' vs' g₁ g') :
    Derives γ (Xs ++ Ys) (ts ++ ts') (vs ++ vs') g g' := by
  induction h with
  | nil g => exact h'
  | token t _ ih => exact .token t (ih h')
  | rule r hr _ _ ih =>
    rw [List.append_assoc]
    exact .rule r hr (ih h')

/-- A rule on its own. -/
theorem single (r : R) (h : Derives γ (γ.rhs r) ts vs g g₁) :
    Derives γ [.nonterminal (γ.lhs r)] ts [(γ.act r vs g₁).1] g (γ.act r vs g₁).2 := by
  have hr := Derives.rule r h (.nil _)
  rwa [List.append_nil] at hr

end Derives

/-! ### Items -/

namespace Grammar

variable (γ : Grammar T K N R V G)

/-- Symbol that comes next in a rule of which some symbols are read. -/
def nextSymbol (i : R × Nat) : Option (Symbol K N) := (γ.rhs i.1)[i.2]?

variable [DecidableEq K] [DecidableEq N] [DecidableEq R]

/-- Adds the rules of the symbols that come next, in as many rounds as there may be rules. -/
def closure (rules : List R) : Nat → List (R × Nat) → List (R × Nat)
  | 0, is => is
  | n + 1, is =>
    closure rules n (is ++ (rules.filter fun r ↦
      (r, 0) ∉ is ∧ is.any fun i ↦ γ.nextSymbol i = some (.nonterminal (γ.lhs r))).map (·, 0))

/-- What is read of which rules once a symbol has come. -/
def goto (rules : List R) (is : List (R × Nat)) (X : Symbol K N) : List (R × Nat) :=
  ((γ.closure rules rules.length is).filter fun i ↦ γ.nextSymbol i = some X).map fun i ↦
    (i.1, i.2 + 1)

end Grammar

/-! ### Parsers -/

/-- A source delivers tokens one by one. -/
inductive Delivers (lex : S → T × S) : S → List T → S → Prop where
  | nil (s : S) : Delivers lex s [] s
  | cons {s s₁ s' : S} {t : T} {ts : List T} :
      lex s = (t, s₁) → Delivers lex s₁ ts s' → Delivers lex s (t :: ts) s'

theorem delivers_append {lex : S → T × S} {s s' : S} {ts ts' : List T} :
    Delivers lex s (ts ++ ts') s' ↔ ∃ m, Delivers lex s ts m ∧ Delivers lex m ts' s' := by
  induction ts generalizing s with
  | nil =>
    constructor
    · intro h
      exact ⟨s, .nil s, h⟩
    · rintro ⟨m, ⟨⟩, h⟩
      exact h
  | cons t ts ih =>
    constructor
    · rintro (_ | ⟨hl, h⟩)
      rcases ih.mp h with ⟨m, h1, h2⟩
      exact ⟨m, .cons hl h1, h2⟩
    · rintro ⟨m, _ | ⟨hl, h1⟩, h2⟩
      exact .cons hl (ih.mpr ⟨m, h1, h2⟩)

/-- What a state does: it is the last one, it shifts, or it reduces whatever comes next. -/
inductive Mode (R : Type*) where
  | accept
  | shift
  | reduce (r : R)
  deriving DecidableEq

/-- A grammar with the tables of a parser, and the function that delivers its tokens. -/
structure Parser (Q S T K N R V G : Type*) extends Grammar T K N R V G where
  start : Q
  mode : Q → Mode R
  next : Q → Symbol K N → Option Q
  lex : S → T × S

/-- A parser at work, with the states and values on its stack, or after its return. -/
inductive Conf (Q S V G : Type*) where
  | parsing (src : S) (stack : List (Q × V)) (g : G)
  | returned (ok : Bool) (src : S) (g : G)

namespace Parser

variable (P : Parser Q S T K N R V G)

/-- State on top of the stack. -/
def top : List (Q × V) → Q
  | [] => P.start
  | (q, _) :: _ => q

/-- Replaces the symbols of a rule on the stack by the symbol that it defines. -/
def reduce (src : S) (stack : List (Q × V)) (g : G) (r : R) : Conf Q S V G :=
  let below := stack.drop (P.rhs r).length
  let (v, g') := P.act r ((stack.take (P.rhs r).length).reverse.map Prod.snd) g
  match P.next (P.top below) (.nonterminal (P.lhs r)) with
  | some q => .parsing src ((q, v) :: below) g'
  | none => .returned false src g'

/-- Shifts a token or gives up on it. -/
def shift (src : S) (stack : List (Q × V)) (g : G) : Conf Q S V G :=
  match P.next (P.top stack) (.terminal (P.kind (P.lex src).1)) with
  | some q => .parsing (P.lex src).2 ((q, P.value (P.lex src).1) :: stack) g
  | none => .returned false (P.lex src).2 g

/-- One step. -/
def step : Conf Q S V G → Option (Conf Q S V G)
  | .parsing src stack g =>
    match P.mode (P.top stack) with
    | .accept => some (.returned true src g)
    | .shift => some (P.shift src stack g)
    | .reduce r => some (P.reduce src stack g r)
  | .returned .. => none

/-- States entered over a list of symbols. -/
def walk (q : Q) : List (Symbol K N) → Option (List Q)
  | [] => some []
  | X :: Xs => (P.next q X).bind fun q' ↦ (walk q' Xs).map (q' :: ·)

/-- Only states that shift have a next one, and wherever a symbol may come, each of its rules
can be read through to a state that reduces by it. -/
structure Consistent : Prop where
  mode_of_next : ∀ q X q', P.next q X = some q' → P.mode q = .shift
  closed : ∀ q r q', P.next q (.nonterminal (P.lhs r)) = some q' →
    ∃ qs, P.walk q (P.rhs r) = some qs ∧ P.mode (qs.getLastD q) = .reduce r

variable {P}

theorem length_walk {q : Q} {Xs : List (Symbol K N)} {qs : List Q}
    (h : P.walk q Xs = some qs) : qs.length = Xs.length := by
  induction Xs generalizing q qs with
  | nil =>
    cases h
    rfl
  | cons X Xs ih =>
    rcases Option.bind_eq_some_iff.mp h with ⟨q', -, h'⟩
    rcases Option.map_eq_some_iff.mp h' with ⟨qs', hw, rfl⟩
    rw [List.length_cons, List.length_cons, ih hw]

theorem top_push (stack : List (Q × V)) {qs : List Q} {vs : List V}
    (h : qs.length = vs.length) :
    P.top ((qs.zip vs).reverse ++ stack) = qs.getLastD (P.top stack) := by
  induction qs generalizing vs stack with
  | nil => rfl
  | cons q qs ih =>
    cases vs with
    | nil => cases h
    | cons v vs =>
      rw [List.zip_cons_cons, List.reverse_cons, List.append_assoc, List.singleton_append,
        ih _ (Nat.succ.inj h), List.getLastD_cons, top]

/-- A reduction takes what the symbols of its rule have left on the stack. -/
theorem reduce_eq (src : S) (stack : List (Q × V)) (g : G) (r : R) {qs : List Q} {vs : List V}
    (hq : qs.length = (P.rhs r).length) (hv : vs.length = (P.rhs r).length) :
    P.reduce src ((qs.zip vs).reverse ++ stack) g r =
      match P.next (P.top stack) (.nonterminal (P.lhs r)) with
      | some q => .parsing src ((q, (P.act r vs g).1) :: stack) (P.act r vs g).2
      | none => .returned false src (P.act r vs g).2 := by
  have hl : ((qs.zip vs).reverse).length = (P.rhs r).length := by
    rw [List.length_reverse, List.length_zip, hq, hv, Nat.min_self]
  have htake : (((qs.zip vs).reverse ++ stack).take (P.rhs r).length).reverse.map Prod.snd =
      vs := by
    rw [← hl, List.take_left, List.reverse_reverse, List.map_snd_zip (by omega)]
  have hdrop : ((qs.zip vs).reverse ++ stack).drop (P.rhs r).length = stack := by
    rw [← hl, List.drop_left]
  rw [reduce, htake, hdrop]

theorem reduce_push (src : S) (stack : List (Q × V)) (g : G) (r : R) {qs : List Q} {vs : List V}
    {q : Q} (hq : qs.length = (P.rhs r).length) (hv : vs.length = (P.rhs r).length)
    (hn : P.next (P.top stack) (.nonterminal (P.lhs r)) = some q) :
    P.reduce src ((qs.zip vs).reverse ++ stack) g r =
      .parsing src ((q, (P.act r vs g).1) :: stack) (P.act r vs g).2 := by
  rw [reduce_eq src stack g r hq hv, hn]

/-- A state that has a next one over the token that comes shifts it. -/
theorem Consistent.step_shift (hP : P.Consistent) {s s₁ : S} {stack : List (Q × V)} {g : G} {t : T}
    {q : Q} (hl : P.lex s = (t, s₁))
    (hn : P.next (P.top stack) (.terminal (P.kind t)) = some q) :
    P.step (.parsing s stack g) = some (.parsing s₁ ((q, P.value t) :: stack) g) := by
  rw [step, hP.mode_of_next _ _ _ hn]
  show some (P.shift s stack g) = _
  rw [shift, hl, hn]

theorem step_reduce (src : S) {stack : List (Q × V)} (g : G) {r : R}
    (h : P.mode (P.top stack) = .reduce r) :
    P.step (.parsing src stack g) = some (P.reduce src stack g r) := by
  rw [step, h]

/-- A token that cannot be shifted is lost. -/
theorem step_error {s s₁ : S} {stack : List (Q × V)} {g : G} {t : T} (hl : P.lex s = (t, s₁))
    (hm : P.mode (P.top stack) = .shift)
    (hn : P.next (P.top stack) (.terminal (P.kind t)) = none) :
    P.step (.parsing s stack g) = some (.returned false s₁ g) := by
  rw [step, hm]
  show some (P.shift s stack g) = _
  rw [shift, hl, hn]

/-- A parser reads whatever its symbols stand for, and its actions are those of the grammar. -/
theorem Consistent.reaches (hP : P.Consistent) {Xs : List (Symbol K N)} {ts : List T}
    {vs : List V} {g g' : G} (h : Derives P.toGrammar Xs ts vs g g') {stack : List (Q × V)}
    {qs : List Q} {s s' : S} (hw : P.walk (P.top stack) Xs = some qs)
    (hs : Delivers P.lex s ts s') :
    Reaches P.step (.parsing s stack g) (.parsing s' ((qs.zip vs).reverse ++ stack) g') := by
  induction h generalizing stack qs s s' with
  | nil g =>
    cases hw
    cases hs
    exact .refl
  | token t _ ih =>
    rcases Option.bind_eq_some_iff.mp hw with ⟨q, hn, hw'⟩
    rcases Option.map_eq_some_iff.mp hw' with ⟨qs', hqs, rfl⟩
    rcases hs with _ | ⟨hl, hs⟩
    rw [List.zip_cons_cons, List.reverse_cons, List.append_assoc, List.singleton_append]
    exact .head (hP.step_shift hl hn) (ih hqs hs)
  | @rule _ _ _ vs _ _ g₁ _ r hr _ ihr ih =>
    rcases Option.bind_eq_some_iff.mp hw with ⟨q, hn, hw'⟩
    rcases Option.map_eq_some_iff.mp hw' with ⟨qs', hqs, rfl⟩
    rcases delivers_append.mp hs with ⟨m, hs₁, hs₂⟩
    rcases hP.closed _ r _ hn with ⟨ps, hps, hmode⟩
    have hlp := length_walk hps
    have hlv := hr.length_eq
    rw [← top_push stack (hlp.trans hlv.symm)] at hmode
    have hstep := step_reduce m g₁ hmode
    rw [reduce_push m stack g₁ r hlp hlv hn] at hstep
    rw [List.zip_cons_cons, List.reverse_cons, List.append_assoc, List.singleton_append]
    exact (ihr hps hs₁).trans (.head hstep (ih hqs hs₂))

end Parser

end CtrlrFx.Base.LR
