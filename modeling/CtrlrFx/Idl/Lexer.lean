import CtrlrFx.Base.Lex
import CtrlrFx.Idl.Func

/-!
# Tokens of the interface compiler

`tools/cfxidl/cfxidl.l`. A token carries the member of `yylval` that the action of its rule sets.
-/

namespace CtrlrFx.Idl
open Base

/-- Tokens with a name, and characters that stand for themselves;
`tools/cfxidl/cfxidl.y:57–60`. No rule of the grammar reads the value of a number. -/
inductive Token where
  | END
  | INTERFACE
  | NAME (sym : String)
  | NUMBER
  | DIR (ival : Dir)
  | char (c : Char)
  deriving DecidableEq, Repr

/-! ### Patterns -/

/-- `[a-zA-Z_]` -/
def isNameStart (c : Char) : Bool := c.isAlpha || c == '_'

/-- `[a-zA-Z0-9_]` -/
def isNameRest (c : Char) : Bool := c.isAlphanum || c == '_'

/-- `[a-zA-Z_][a-zA-Z0-9_]*` -/
def nameLength : List Char → Nat
  | [] => 0
  | c :: cs => if isNameStart c then (cs.takeWhile isNameRest).length + 1 else 0

/-- `[0-9]*` -/
def digits (cs : List Char) : Nat := (cs.takeWhile Char.isDigit).length

/-- `([eE][-+]?[0-9]+)?` -/
def exponentLength : List Char → Nat
  | e :: cs =>
    if e = 'e' ∨ e = 'E' then
      match cs with
      | s :: ds =>
        if s = '-' ∨ s = '+' then if 0 < digits ds then digits ds + 2 else 0
        else if 0 < digits cs then digits cs + 1 else 0
      | [] => 0
    else 0
  | [] => 0

/-- `([0-9]+|([0-9]*\.[0-9]+)([eE][-+]?[0-9]+)?)` -/
def numberLength (cs : List Char) : Nat :=
  match cs.drop (digits cs) with
  | '.' :: ds =>
    if 0 < digits ds then digits cs + 1 + digits ds + exponentLength (ds.drop (digits ds))
    else digits cs
  | _ => digits cs

/-! ### Rules -/

/-- A rule for a text. -/
def keyword (w : String) (t : Token) : Lex.Rule Char Token where
  len cs := if w.toList.isPrefixOf cs then w.toList.length else 0
  act _ := some t

/-- A rule for one character of a kind. -/
def oneOf (p : Char → Bool) (act : List Char → Option Token) : Lex.Rule Char Token where
  len cs := if cs.head?.any p then 1 else 0
  act := act

/-- `return yytext[0]`: a `char` that is not positive is the end to the parser. -/
def charToken (c : Char) : Token := if 0 < c.toNat ∧ c.toNat < 128 then .char c else .END

/-- `tools/cfxidl/cfxidl.l:15–33` -/
def rules : List (Lex.Rule Char Token) :=
  [keyword "interface" .INTERFACE,
    keyword "in" (.DIR .IN),
    keyword "out" (.DIR .OUT),
    keyword "inout" (.DIR .INOUT),
    { len := numberLength, act := fun _ ↦ some .NUMBER },
    oneOf (fun c ↦ c == ' ' || c == '\t' || c == '\r') fun _ ↦ none,
    oneOf (fun c ↦ c == '\n') fun _ ↦ none,
    { len := nameLength, act := fun text ↦ some (.NAME (String.ofList text)) },
    oneOf (fun c ↦ c != '\n') fun text ↦ text.head?.map charToken]

/-- What the scanner has not read, and whether it has returned the end of the file. -/
structure Scanner where
  rest : List Char
  ended : Bool
  deriving DecidableEq, Repr

/-- Next token. -/
def yylex (s : Scanner) : Token × Scanner :=
  match Lex.token rules s.rest with
  | (some t, rest) => (t, { s with rest := rest })
  | (none, rest) => (.END, { rest := rest, ended := true })

/-! ### Words -/

/-- Texts with a token of their own. -/
def keywords : List String := ["interface", "in", "out", "inout"]

/-- Token for a word. -/
def wordToken (w : List Char) : Token :=
  if w = "interface".toList then .INTERFACE
  else if w = "in".toList then .DIR .IN
  else if w = "out".toList then .DIR .OUT
  else if w = "inout".toList then .DIR .INOUT
  else .NAME (String.ofList w)

/-- Letters, digits and underscores with no digit in front. -/
def IsWord (w : List Char) : Prop := w.head?.any isNameStart ∧ w.all isNameRest

instance (w : List Char) : Decidable (IsWord w) := inferInstanceAs (Decidable (_ ∧ _))

/-- No more letters of a word follow. -/
def Ends (cs : List Char) : Prop := ¬ cs.head?.any isNameRest

instance (cs : List Char) : Decidable (Ends cs) := inferInstanceAs (Decidable (¬ _))

theorem takeWhile_word {w cs : List Char} (hw : w.all isNameRest) (hcs : Ends cs) :
    (w ++ cs).takeWhile isNameRest = w := by
  rw [List.takeWhile_append_of_pos (List.all_eq_true.mp hw)]
  cases cs with
  | nil => rw [List.takeWhile_nil, List.append_nil]
  | cons c cs =>
    have hc : ¬ isNameRest c := hcs
    rw [List.takeWhile_cons_of_neg hc, List.append_nil]

theorem nameLength_word {w cs : List Char} (hw : IsWord w) (hcs : Ends cs) :
    nameLength (w ++ cs) = w.length := by
  rcases hw with ⟨hs, ha⟩
  cases w with
  | nil => cases hs
  | cons c w =>
    have hc : isNameStart c := hs
    rw [List.all_cons, Bool.and_eq_true] at ha
    rw [List.cons_append, nameLength, if_pos hc, takeWhile_word ha.2 hcs, List.length_cons]

theorem IsWord.length_pos {w : List Char} (hw : IsWord w) : 0 < w.length := by
  cases w with
  | nil => exact absurd hw.1 (by decide)
  | cons c w => exact Nat.succ_pos _

/-- A keyword matches no more than the word that comes, and all of it only if it is that word. -/
theorem len_keyword {k : String} (t : Token) {w cs : List Char} (hk : k.toList.all isNameRest)
    (hw : IsWord w) (hcs : Ends cs) (hne : w ≠ k.toList) :
    (keyword k t).len (w ++ cs) < w.length := by
  show (if _ then _ else _) < _
  split
  · next hp =>
    rcases List.isPrefixOf_iff_prefix.mp hp with ⟨l, hl⟩
    have hkw : k.toList <+: w := by
      have ht := takeWhile_word hw.2 hcs
      rw [← hl, List.takeWhile_append_of_pos (List.all_eq_true.mp hk)] at ht
      exact ⟨_, ht⟩
    apply Nat.lt_of_le_of_ne hkw.length_le
    intro he
    exact hne (hkw.eq_of_length he).symm
  · exact hw.length_pos

theorem len_keyword_self (k : String) (t : Token) (cs : List Char) :
    (keyword k t).len (k.toList ++ cs) = k.toList.length :=
  if_pos (List.isPrefixOf_iff_prefix.mpr (List.prefix_append _ _))

theorem not_isDigit_of_isNameStart {c : Char} (h : isNameStart c) : ¬ c.isDigit := by
  intro hd
  rw [Char.isDigit, Bool.and_eq_true, decide_eq_true_eq, decide_eq_true_eq] at hd
  unfold isNameStart Char.isAlpha Char.isUpper Char.isLower at h
  simp only [Bool.or_eq_true, Bool.and_eq_true, decide_eq_true_eq, beq_iff_eq] at h
  rcases h with (⟨h, -⟩ | ⟨h, -⟩) | rfl
  · exact absurd (UInt32.le_trans h hd.2) (by decide)
  · exact absurd (UInt32.le_trans h hd.2) (by decide)
  · exact absurd hd.2 (by decide)

theorem numberLength_word {w cs : List Char} (hw : IsWord w) : numberLength (w ++ cs) = 0 := by
  cases w with
  | nil => exact absurd hw.1 (by decide)
  | cons c w =>
    have hc : isNameStart c := hw.1
    have hd : digits (c :: (w ++ cs)) = 0 := by
      rw [digits, List.takeWhile_cons_of_neg (not_isDigit_of_isNameStart hc), List.length_nil]
    rw [List.cons_append, numberLength, hd]
    split
    · next he =>
      cases he
      exact absurd hc (by decide)
    · rfl

/-- A rule for characters that no word starts with. -/
theorem len_oneOf {w cs : List Char} (hw : IsWord w) {p : Char → Bool}
    (act : List Char → Option Token) (hp : ∀ c, isNameStart c → ¬ p c) :
    (oneOf p act).len (w ++ cs) = 0 := by
  cases w with
  | nil => exact absurd hw.1 (by decide)
  | cons c w => exact if_neg (hp c hw.1)

theorem not_blank {c : Char} (h : isNameStart c) : ¬ (c == ' ' || c == '\t' || c == '\r') := by
  intro hb
  simp only [Bool.or_eq_true, beq_iff_eq] at hb
  rcases hb with (rfl | rfl) | rfl
  · exact absurd h (by decide)
  · exact absurd h (by decide)
  · exact absurd h (by decide)

theorem not_newline {c : Char} (h : isNameStart c) : ¬ (c == '\n') := by
  intro hb
  rw [beq_iff_eq] at hb
  rw [hb] at h
  exact absurd h (by decide)

/-- No rule matches more than the word that comes. -/
theorem len_rules {w cs : List Char} (hw : IsWord w) (hcs : Ends cs) :
    ∀ r ∈ rules, r.len (w ++ cs) ≤ w.length := by
  have hk : ∀ (k : String) t, k.toList.all isNameRest → (keyword k t).len (w ++ cs) ≤ w.length := by
    intro k t hk
    by_cases he : w = k.toList
    · rw [he]
      exact Nat.le_of_eq (len_keyword_self k t cs)
    · exact Nat.le_of_lt (len_keyword t hk hw hcs he)
  have hone : ∀ p act, (oneOf p act).len (w ++ cs) ≤ w.length := by
    intro p act
    have hpos := hw.length_pos
    show (if _ then _ else _) ≤ _
    split <;> omega
  simp only [rules, List.forall_mem_cons]
  refine ⟨hk _ _ (by decide), hk _ _ (by decide), hk _ _ (by decide), hk _ _ (by decide), ?_,
    hone _ _, hone _ _, ?_, hone _ _, List.forall_mem_nil _⟩
  · show numberLength (w ++ cs) ≤ w.length
    rw [numberLength_word hw]
    exact Nat.zero_le _
  · exact Nat.le_of_eq (nameLength_word hw hcs)

/-- The scanner reads a word to its end with the first rule that does so. -/
theorem token_of_rule {w cs : List Char} (hw : IsWord w) (hcs : Ends cs)
    (l₁ : List (Lex.Rule Char Token)) {l₂ : List (Lex.Rule Char Token)}
    {r : Lex.Rule Char Token} {t : Token} (hr : rules = l₁ ++ r :: l₂)
    (hl : r.len (w ++ cs) = w.length) (h₁ : ∀ x ∈ l₁, x.len (w ++ cs) < w.length)
    (ha : r.act w = some t) : Lex.token rules (w ++ cs) = (some t, cs) := by
  have hp : Lex.pick rules (w ++ cs) = some r := by
    rw [hr]
    apply Lex.pick_append
    · rw [hl]
      exact hw.length_pos
    · rw [hl]
      exact h₁
    · intro x hx
      rw [hl]
      apply len_rules hw hcs
      rw [hr]
      exact List.mem_append_right l₁ (List.mem_cons_of_mem r hx)
  have htake : (w ++ cs).take (r.len (w ++ cs)) = w := by rw [hl, List.take_left]
  have hne : w ++ cs ≠ [] := List.append_ne_nil_of_left_ne_nil
    (List.ne_nil_of_length_pos hw.length_pos) cs
  have ht := Lex.token_of_pick hne hp (htake.symm ▸ ha)
  rwa [hl, List.drop_left] at ht

theorem token_word {w cs : List Char} (hw : IsWord w) (hcs : Ends cs) :
    Lex.token rules (w ++ cs) = (some (wordToken w), cs) := by
  have hlt : ∀ {k : String} {t}, k.toList.all isNameRest → w ≠ k.toList →
      (keyword k t).len (w ++ cs) < w.length := fun hk hne ↦ len_keyword _ hk hw hcs hne
  have hlen : ∀ {k : String} {t}, w = k.toList → (keyword k t).len (w ++ cs) = w.length := by
    intro k t he
    rw [he]
    exact len_keyword_self k t cs
  by_cases h1 : w = "interface".toList
  · rw [wordToken, if_pos h1]
    exact token_of_rule hw hcs [] rfl (hlen h1) (List.forall_mem_nil _) rfl
  have hlt1 := hlt (t := .INTERFACE) (by decide) h1
  by_cases h2 : w = "in".toList
  · rw [wordToken, if_neg h1, if_pos h2]
    refine token_of_rule hw hcs [_] rfl (hlen h2) ?_ rfl
    exact List.forall_mem_singleton.mpr hlt1
  have hlt2 := hlt (t := .DIR .IN) (by decide) h2
  by_cases h3 : w = "out".toList
  · rw [wordToken, if_neg h1, if_neg h2, if_pos h3]
    refine token_of_rule hw hcs [_, _] rfl (hlen h3) ?_ rfl
    exact List.forall_mem_cons.mpr ⟨hlt1, List.forall_mem_singleton.mpr hlt2⟩
  have hlt3 := hlt (t := .DIR .OUT) (by decide) h3
  by_cases h4 : w = "inout".toList
  · rw [wordToken, if_neg h1, if_neg h2, if_neg h3, if_pos h4]
    refine token_of_rule hw hcs [_, _, _] rfl (hlen h4) ?_ rfl
    simp only [List.forall_mem_cons]
    exact ⟨hlt1, hlt2, hlt3, List.forall_mem_nil _⟩
  have hlt4 := hlt (t := .DIR .INOUT) (by decide) h4
  rw [wordToken, if_neg h1, if_neg h2, if_neg h3, if_neg h4]
  refine token_of_rule hw hcs [_, _, _, _, _, _, _] rfl (nameLength_word hw hcs) ?_ rfl
  simp only [List.forall_mem_cons]
  refine ⟨hlt1, hlt2, hlt3, hlt4, ?_, ?_, ?_, List.forall_mem_nil _⟩
  · show numberLength (w ++ cs) < w.length
    rw [numberLength_word hw]
    exact hw.length_pos
  · rw [len_oneOf hw _ fun c ↦ not_blank]
    exact hw.length_pos
  · rw [len_oneOf hw _ fun c ↦ not_newline]
    exact hw.length_pos

/-! ### Other characters -/

/-- Space, tab, carriage return and newline. -/
def isBlank (c : Char) : Bool := c == ' ' || c == '\t' || c == '\r' || c == '\n'

/-- The characters of the grammar. -/
def marks : List Char := ['{', '}', '(', ')', ';', ',']

/-- Blanks are passed over. -/
theorem token_blank {c : Char} (hc : isBlank c) (cs : List Char) :
    Lex.token rules (c :: cs) = Lex.token rules cs := by
  simp only [isBlank, Bool.or_eq_true, beq_iff_eq] at hc
  rcases hc with ((rfl | rfl) | rfl) | rfl
  · exact Lex.token_skip rfl rfl rfl
  · exact Lex.token_skip rfl rfl rfl
  · exact Lex.token_skip rfl rfl rfl
  · exact Lex.token_skip rfl rfl rfl

theorem token_blanks {bs : List Char} (hb : bs.all isBlank) (cs : List Char) :
    Lex.token rules (bs ++ cs) = Lex.token rules cs := by
  induction bs with
  | nil => rfl
  | cons b bs ih =>
    rw [List.all_cons, Bool.and_eq_true] at hb
    rw [List.cons_append, token_blank hb.1, ih hb.2]

theorem token_mark {c : Char} (hc : c ∈ marks) (cs : List Char) :
    Lex.token rules (c :: cs) = (some (.char c), cs) := by
  simp only [marks, List.mem_cons, List.not_mem_nil, or_false] at hc
  rcases hc with rfl | rfl | rfl | rfl | rfl | rfl <;> rfl

/-! ### Texts -/

/-- Texts of words and marks with blanks before, between and behind them. Two words are apart. -/
inductive Spells : List Token → List Char → Prop where
  | nil {bs : List Char} : bs.all isBlank → Spells [] bs
  | word {bs w cs : List Char} {ts : List Token} :
      bs.all isBlank → IsWord w → Ends cs → Spells ts cs →
      Spells (wordToken w :: ts) (bs ++ (w ++ cs))
  | mark {bs cs : List Char} {c : Char} {ts : List Token} :
      bs.all isBlank → c ∈ marks → Spells ts cs → Spells (.char c :: ts) (bs ++ c :: cs)

namespace Spells

/-- The scanner returns the first token and has the text of the others before it. -/
theorem yylex_cons {t : Token} {ts : List Token} {cs : List Char} (h : Spells (t :: ts) cs)
    (ended : Bool) :
    ∃ cs', yylex ⟨cs, ended⟩ = (t, ⟨cs', ended⟩) ∧ Spells ts cs' := by
  cases h with
  | @word bs w cs' _ hb hw he hs =>
    refine ⟨cs', ?_, hs⟩
    rw [yylex, token_blanks hb, token_word hw he]
  | @mark bs cs' c _ hb hc hs =>
    refine ⟨cs', ?_, hs⟩
    rw [yylex, token_blanks hb, token_mark hc]

/-- The scanner finds the end behind the last token. -/
theorem yylex_nil {cs : List Char} (h : Spells [] cs) (ended : Bool) :
    yylex ⟨cs, ended⟩ = (.END, ⟨[], true⟩) := by
  cases h with
  | nil hb =>
    have ht := token_blanks hb []
    rw [List.append_nil] at ht
    rw [yylex, ht]
    rfl

end Spells

/-- Text of a token. -/
def Token.text : Token → List Char
  | .INTERFACE => "interface".toList
  | .DIR .IN => "in".toList
  | .DIR .OUT => "out".toList
  | .DIR .INOUT => "inout".toList
  | .NAME s => s.toList
  | .char c => [c]
  | .END | .NUMBER => []

/-- Tokens of interfaces: the words that have one, other words as names, and marks. -/
def Token.Written : Token → Prop
  | .INTERFACE | .DIR _ => True
  | .NAME s => IsWord s.toList ∧ wordToken s.toList = .NAME s
  | .char c => c ∈ marks
  | .END | .NUMBER => False

instance (t : Token) : Decidable t.Written := by
  cases t <;> unfold Token.Written <;> infer_instance

/-- Tokens with a space before each. -/
def write (ts : List Token) : List Char := ts.flatMap fun t ↦ ' ' :: t.text

theorem ends_write (ts : List Token) : Ends (write ts) := by
  cases ts with
  | nil => decide
  | cons t ts => exact Bool.false_ne_true

/-- Whatever consists of such tokens can be written. -/
theorem spells_write {ts : List Token} (h : ∀ t ∈ ts, t.Written) : Spells ts (write ts) := by
  induction ts with
  | nil => exact .nil rfl
  | cons t ts ih =>
    have hs := ih fun u hu ↦ h u (List.mem_cons_of_mem t hu)
    have ht := h t List.mem_cons_self
    have hword : ∀ {w : List Char}, IsWord w →
        Spells (wordToken w :: ts) ([' '] ++ (w ++ write ts)) :=
      fun hw ↦ .word rfl hw (ends_write ts) hs
    cases t with
    | INTERFACE => exact hword (w := "interface".toList) (by decide)
    | DIR d =>
      cases d with
      | IN => exact hword (w := "in".toList) (by decide)
      | OUT => exact hword (w := "out".toList) (by decide)
      | INOUT => exact hword (w := "inout".toList) (by decide)
    | NAME s =>
      have hs' := hword ht.1
      rwa [ht.2] at hs'
    | char c => exact .mark (rfl : [' '].all isBlank) ht hs
    | END => exact ht.elim
    | NUMBER => exact ht.elim

end CtrlrFx.Idl
