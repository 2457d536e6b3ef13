import CtrlrFx.Base.LR

/-!
# What a parser has read

Whatever is on the stack of a parser has been read by its grammar: the symbols over which its
states were entered stand for the tokens that came, and the actions were those of the grammar.
What the symbols of a grammar mean can be shown rule by rule.
-/

namespace CtrlrFx.Base.LR

variable {Q S T K N R V G : Type*}

/-! ### Derivations taken apart -/

namespace Derives

variable {γ : Grammar T K N R V G} {Xs Ys : List (Symbol K N)} {ts : List T} {vs : List V}
  {g g' : G}

/-- Symbols one after the other stand for their tokens one after the other. -/
theorem split (h : Derives γ (Xs ++ Ys) ts vs g g') :
    ∃ ts₁ ts₂ vs₁ vs₂ g₁, ts = ts₁ ++ ts₂ ∧ vs = vs₁ ++ vs₂ ∧
      Derives γ Xs ts₁ vs₁ g g₁ ∧ Derives γ Ys ts₂ vs₂ g₁ g' := by
  induction Xs generalizing ts vs g with
  | nil => exact ⟨[], ts, [], vs, g, rfl, rfl, .nil g, h⟩
  | cons X Xs ih =>
    rw [List.cons_append] at h
    cases h with
    | token t h =>
      obtain ⟨ts₁, ts₂, vs₁, vs₂, g₁, rfl, rfl, h₁, h₂⟩ := ih h
      exact ⟨t :: ts₁, ts₂, _ :: vs₁, vs₂, g₁, rfl, rfl, .token t h₁, h₂⟩
    | rule r hr h =>
      obtain ⟨ts₁, ts₂, vs₁, vs₂, g₁, rfl, rfl, h₁, h₂⟩ := ih h
      exact ⟨_ ++ ts₁, ts₂, _ :: vs₁, vs₂, g₁, (List.append_assoc _ _ _).symm, rfl,
        .rule r hr h₁, h₂⟩

end Derives

/-! ### Meanings -/

/-- Symbols stand for tokens, and what they do follows from what each nonterminal is to do with
its tokens. -/
def Means (γ : Grammar T K N R V G) (W : N → List T → G → G → Prop) :
    List (Symbol K N) → List T → List V → G → G → Prop
  | [], ts, vs, g, g' => ts = [] ∧ vs = [] ∧ g' = g
  | .terminal k :: Xs, ts, vs, g, g' =>
    ∃ t ts' vs', ts = t :: ts' ∧ vs = γ.value t :: vs' ∧ γ.kind t = k ∧ Means γ W Xs ts' vs' g g'
  | .nonterminal n :: Xs, ts, vs, g, g' =>
    ∃ ts₁ ts₂ v vs' g₁, ts = ts₁ ++ ts₂ ∧ vs = v :: vs' ∧ W n ts₁ g g₁ ∧
      Means γ W Xs ts₂ vs' g₁ g'

/-- A meaning that each rule gives to the symbol that it defines is that of all derivations. -/
theorem Derives.means {γ : Grammar T K N R V G} {W : N → List T → G → G → Prop}
    (hW : ∀ r ts vs g g', Means γ W (γ.rhs r) ts vs g g' → W (γ.lhs r) ts g (γ.act r vs g').2)
    {Xs : List (Symbol K N)} {ts : List T} {vs : List V} {g g' : G}
    (h : Derives γ Xs ts vs g g') : Means γ W Xs ts vs g g' := by
  induction h with
  | nil g => exact ⟨rfl, rfl, rfl⟩
  | token t _ ih => exact ⟨t, _, _, rfl, rfl, rfl, ih⟩
  | rule r _ _ ihr ih => exact ⟨_, _, _, _, _, rfl, rfl, hW r _ _ _ _ ihr, ih⟩

namespace Parser

/-! ### Stacks -/

variable (P : Parser Q S T K N R V G)

/-- What has been read for certain when a state is entered. -/
structure Sound (past : Q → List (Symbol K N)) : Prop where
  start : past P.start = []
  next : ∀ q X q', P.next q X = some q' → past q' <:+ past q ++ [X]
  reduce : ∀ q r, P.mode q = .reduce r → P.rhs r <:+ past q

/-- The states on the stack were entered over symbols that stand for the tokens read, and the
actions have led from the one global state to the other. -/
def Reads (ts : List T) (g₀ : G) (stack : List (Q × V)) (g : G) : Prop :=
  ∃ Xs qs vs, P.walk P.start Xs = some qs ∧ stack = (qs.zip vs).reverse ∧
    Derives P.toGrammar Xs ts vs g₀ g

variable {P}

theorem walk_append (q : Q) (Xs Ys : List (Symbol K N)) :
    P.walk q (Xs ++ Ys) =
      (P.walk q Xs).bind fun qs ↦ (P.walk (qs.getLastD q) Ys).map (qs ++ ·) := by
  induction Xs generalizing q with
  | nil => simp [walk]
  | cons X Xs ih =>
    rw [List.cons_append, walk, walk]
    cases P.next q X with
    | none => rfl
    | some q' =>
      rw [Option.bind_some, Option.bind_some, ih, Option.map_bind, Option.bind_map]
      apply Option.bind_congr
      intro qs _
      show ((P.walk (qs.getLastD q') Ys).map _).map _ = (P.walk ((q' :: qs).getLastD q) Ys).map _
      rw [Option.map_map, List.getLastD_cons]
      rfl

theorem top_zip {qs : List Q} {vs : List V} (h : qs.length = vs.length) :
    P.top (qs.zip vs).reverse = qs.getLastD P.start := by
  have ht := top_push (P := P) ([] : List (Q × V)) h
  rwa [List.append_nil] at ht

/-- The symbols over which the states were entered end with those that are known. -/
theorem Sound.past_suffix {past : Q → List (Symbol K N)} (hP : P.Sound past)
    {Xs : List (Symbol K N)} {qs : List Q} (h : P.walk P.start Xs = some qs) :
    past (qs.getLastD P.start) <:+ Xs := by
  induction Xs using List.reverseRecOn generalizing qs with
  | nil =>
    cases h
    rw [List.getLastD_nil, hP.start]
  | append_singleton Xs X ih =>
    rw [walk_append] at h
    obtain ⟨ps, hps, h⟩ := Option.bind_eq_some_iff.mp h
    obtain ⟨rs, hrs, rfl⟩ := Option.map_eq_some_iff.mp h
    obtain ⟨q, hn, hq⟩ := Option.bind_eq_some_iff.mp hrs
    cases hq
    rw [List.getLastD_concat]
    obtain ⟨Ys, hYs⟩ := ih hps
    have hsuf : past (ps.getLastD P.start) ++ [X] <:+ Xs ++ [X] :=
      ⟨Ys, by rw [← hYs, List.append_assoc]⟩
    exact (hP.next _ _ _ hn).trans hsuf

/-- A reduction finds the symbols of its rule on top of what was read before. -/
theorem Sound.split {past : Q → List (Symbol K N)} (hP : P.Sound past) {ts : List T} {g₀ g : G}
    {stack : List (Q × V)} (h : P.Reads ts g₀ stack g) {r : R}
    (hr : P.mode (P.top stack) = .reduce r) :
    ∃ ts₁ ts₂ g₁ below qs vs, ts = ts₁ ++ ts₂ ∧ P.Reads ts₁ g₀ below g₁ ∧
      P.walk (P.top below) (P.rhs r) = some qs ∧ stack = (qs.zip vs).reverse ++ below ∧
      Derives P.toGrammar (P.rhs r) ts₂ vs g₁ g := by
  obtain ⟨Xs, qs, vs, hw, rfl, hd⟩ := h
  rw [top_zip ((length_walk hw).trans hd.length_eq.symm)] at hr
  obtain ⟨Ys, hYs⟩ := (hP.reduce _ _ hr).trans (hP.past_suffix hw)
  rw [← hYs] at hw hd
  rw [walk_append] at hw
  obtain ⟨ps, hps, hw⟩ := Option.bind_eq_some_iff.mp hw
  obtain ⟨rs, hrs, rfl⟩ := Option.map_eq_some_iff.mp hw
  obtain ⟨ts₁, ts₂, vs₁, vs₂, g₁, rfl, rfl, h₁, h₂⟩ := hd.split
  have hlen : ps.length = vs₁.length := (length_walk hps).trans h₁.length_eq.symm
  refine ⟨ts₁, ts₂, g₁, (ps.zip vs₁).reverse, rs, vs₂, rfl, ⟨Ys, ps, vs₁, hps, rfl, h₁⟩, ?_, ?_, h₂⟩
  · rw [top_zip hlen]
    exact hrs
  · rw [List.zip_append hlen, List.reverse_append]

theorem reads_nil (g : G) : P.Reads [] g [] g := ⟨[], [], [], rfl, rfl, .nil g⟩

/-- A symbol that is entered adds its tokens. -/
theorem Reads.push {ts ts' : List T} {g₀ g g' : G} {stack : List (Q × V)}
    (h : P.Reads ts g₀ stack g) {X : Symbol K N} {v : V} {q : Q}
    (hn : P.next (P.top stack) X = some q) (hd : Derives P.toGrammar [X] ts' [v] g g') :
    P.Reads (ts ++ ts') g₀ ((q, v) :: stack) g' := by
  obtain ⟨Xs, qs, vs, hw, rfl, h⟩ := h
  have hlen : qs.length = vs.length := (length_walk hw).trans h.length_eq.symm
  rw [top_zip hlen] at hn
  refine ⟨Xs ++ [X], qs ++ [q], vs ++ [v], ?_, ?_, h.append hd⟩
  · rw [walk_append, hw, Option.bind_some, walk, hn]
    rfl
  · rw [List.zip_append hlen, List.reverse_append]
    rfl

/-- The token that the next step takes from the source. -/
def taken (src : S) (stack : List (Q × V)) : List T :=
  match P.mode (P.top stack) with
  | .shift => [(P.lex src).1]
  | _ => []

/-- What a step leaves on the stack has been read as well. -/
theorem Sound.step {past : Q → List (Symbol K N)} (hP : P.Sound past) {ts : List T} {g₀ g g' : G}
    {src src' : S} {stack stack' : List (Q × V)} (h : P.Reads ts g₀ stack g)
    (hs : P.step (.parsing src stack g) = some (.parsing src' stack' g')) :
    P.Reads (ts ++ P.taken src stack) g₀ stack' g' := by
  rw [Parser.step] at hs
  cases hm : P.mode (P.top stack) with
  | accept =>
    rw [hm] at hs
    cases hs
  | shift =>
    rw [hm] at hs
    rw [taken, hm]
    have hs' : P.shift src stack g = .parsing src' stack' g' := Option.some.inj hs
    rw [shift] at hs'
    cases hn : P.next (P.top stack) (.terminal (P.kind (P.lex src).1)) with
    | none =>
      rw [hn] at hs'
      cases hs'
    | some q =>
      rw [hn] at hs'
      cases hs'
      exact h.push hn (.token _ (.nil g))
  | reduce r =>
    rw [hm] at hs
    rw [taken, hm, List.append_nil]
    have hs' : P.reduce src stack g r = .parsing src' stack' g' := Option.some.inj hs
    obtain ⟨ts₁, ts₂, g₁, below, qs, vs, rfl, hb, hw, rfl, hd⟩ := hP.split h hm
    rw [reduce_eq src below g r (length_walk hw) hd.length_eq] at hs'
    cases hn : P.next (P.top below) (.nonterminal (P.lhs r)) with
    | none =>
      rw [hn] at hs'
      cases hs'
    | some q =>
      rw [hn] at hs'
      cases hs'
      exact hb.push hn (Derives.single r hd)

end Parser
end CtrlrFx.Base.LR
