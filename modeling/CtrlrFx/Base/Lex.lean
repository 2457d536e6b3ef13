import Mathlib.Data.List.Basic

/-!
# Scanners

A scanner matches what comes next with a list of rules and takes the longest match, or the
first of the longest ones. The action of a rule returns a token or lets the scanner go on.
-/

namespace CtrlrFx.Base.Lex

variable {α τ : Type*}

/-- Length of the longest prefix that a pattern matches, 0 if there is none, and the token that
is returned for that text. -/
structure Rule (α τ : Type*) where
  len : List α → Nat
  act : List α → Option τ

/-- The rule that is applied to a text. -/
def pick : List (Rule α τ) → List α → Option (Rule α τ)
  | [], _ => none
  | r :: rs, cs =>
    match pick rs cs with
    | none => if 0 < r.len cs then some r else none
    | some r' => if r'.len cs ≤ r.len cs then some r else some r'

/-- Next token with the text that follows it, or the end of the text. A letter that no rule
matches is passed over. -/
def scan (rules : List (Rule α τ)) : Nat → List α → Option τ × List α
  | 0, cs => (none, cs)
  | n + 1, cs =>
    match pick rules cs with
    | none => scan rules n (cs.drop 1)
    | some r =>
      match r.act (cs.take (r.len cs)) with
      | none => scan rules n (cs.drop (r.len cs))
      | some t => (some t, cs.drop (r.len cs))

/-- Every rule takes at least one letter, so that there are no more rounds than letters. -/
def token (rules : List (Rule α τ)) (cs : List α) : Option τ × List α :=
  scan rules cs.length cs

theorem mem_of_pick {rs : List (Rule α τ)} {cs : List α} {r : Rule α τ}
    (h : pick rs cs = some r) : r ∈ rs := by
  induction rs generalizing r with
  | nil => cases h
  | cons x rs ih =>
    unfold pick at h
    split at h
    · rcases Option.ite_none_right_eq_some.mp h with ⟨-, he⟩
      cases he
      exact List.mem_cons_self
    · next r' hr =>
      split at h
      · cases h
        exact List.mem_cons_self
      · cases h
        exact List.mem_cons_of_mem x (ih hr)

/-- The first of the longest matches is applied. -/
theorem pick_append {l₁ l₂ : List (Rule α τ)} {r : Rule α τ} {cs : List α} (hr : 0 < r.len cs)
    (h₁ : ∀ x ∈ l₁, x.len cs < r.len cs) (h₂ : ∀ x ∈ l₂, x.len cs ≤ r.len cs) :
    pick (l₁ ++ r :: l₂) cs = some r := by
  induction l₁ with
  | nil =>
    rw [List.nil_append, pick]
    split
    · exact if_pos hr
    · next r' hp => exact if_pos (h₂ r' (mem_of_pick hp))
  | cons x l₁ ih =>
    rw [List.cons_append, pick, ih fun y hy ↦ h₁ y (List.mem_cons_of_mem x hy)]
    exact if_neg (Nat.not_le_of_lt (h₁ x List.mem_cons_self))

theorem token_of_pick {rules : List (Rule α τ)} {cs : List α} {r : Rule α τ} {t : τ}
    (hcs : cs ≠ []) (hp : pick rules cs = some r) (ha : r.act (cs.take (r.len cs)) = some t) :
    token rules cs = (some t, cs.drop (r.len cs)) := by
  cases cs with
  | nil => exact absurd rfl hcs
  | cons a cs =>
    rw [token, List.length_cons, scan, hp]
    show (match r.act _ with | none => _ | some t => _) = _
    rw [ha]

/-- A single letter is passed over. -/
theorem token_skip {rules : List (Rule α τ)} {a : α} {cs : List α} {r : Rule α τ}
    (hp : pick rules (a :: cs) = some r) (hl : r.len (a :: cs) = 1) (ha : r.act [a] = none) :
    token rules (a :: cs) = token rules cs := by
  rw [token, List.length_cons, scan, hp]
  show (match r.act _ with | none => _ | some t => _) = _
  rw [hl, List.take_succ_cons, List.take_zero, ha]
  rfl

end CtrlrFx.Base.Lex
