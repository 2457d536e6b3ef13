import CtrlrFx.Base.Machine
import Mathlib.Data.List.Count

/-!
# Owners of handles

The system calls that an object makes on handles, and the account they leave: which handles it
has opened and not yet closed. A call on any other handle has no account; values of a given kind
are no handles at all. An owner should be open when it has a handle, and settle its account in the
end.
-/

namespace CtrlrFx.Base

universe u v

/-- A system call that opens, closes or uses a handle. -/
inductive HandleCall where
  | open (answer : Option Nat)
  | close (v : Int)
  | use (v : Int)
  deriving DecidableEq, Repr

namespace HandleCall

/-- The value is a handle that is held. -/
def Holds (held : List Nat) (v : Int) : Prop := 0 ≤ v ∧ v.toNat ∈ held

instance (held : List Nat) (v : Int) : Decidable (Holds held v) :=
  inferInstanceAs (Decidable (_ ∧ _))

/-- What system calls return for an error is no handle. -/
def isError (v : Int) : Bool := v == -1

/-- What is held after a call. -/
def settle (void : Int → Bool) (held : List Nat) : HandleCall → Option (List Nat)
  | .open none => some held
  | .open (some fd) => some (fd :: held)
  | .close v =>
    if Holds held v then some (held.erase v.toNat) else if void v then some held else none
  | .use v => if Holds held v then some held else if void v then some held else none

/-- What is held after a list of calls. -/
def settleAll (void : Int → Bool) : List Nat → List HandleCall → Option (List Nat)
  | held, [] => some held
  | held, c :: cs => (settle void held c).bind fun held' ↦ settleAll void held' cs

theorem settleAll_append (void : Int → Bool) (held : List Nat) (cs ds : List HandleCall) :
    settleAll void held (cs ++ ds) =
      (settleAll void held cs).bind fun held' ↦ settleAll void held' ds := by
  induction cs generalizing held with
  | nil => rfl
  | cons c cs ih =>
    rw [List.cons_append, settleAll, settleAll]
    cases settle void held c with
    | none => rfl
    | some held' => exact ih held'

/-- Each call keeps the balance of what was opened, what was closed and what is held. -/
theorem settle_count {void : Int → Bool} {held held' : List Nat} {c : HandleCall}
    (h : settle void held c = some held') (fd : Nat) (hv : void fd = false) :
    [c].count (.open (some fd)) + held.count fd = [c].count (.close fd) + held'.count fd := by
  cases c with
  | «open» answer =>
    cases answer with
    | none =>
      cases h
      simp
    | some g =>
      cases h
      simp only [List.count_cons, List.count_nil]
      by_cases hg : g = fd <;> simp [hg]
      omega
  | close v =>
    by_cases hh : Holds held v
    · rw [settle, if_pos hh] at h
      cases h
      obtain ⟨n, rfl⟩ := Int.eq_ofNat_of_zero_le hh.1
      have hmem : n ∈ held := by simpa using hh.2
      simp only [List.count_cons, List.count_nil, Int.toNat_natCast]
      by_cases hn : n = fd
      · subst hn
        have hpos := List.count_pos_iff.mpr hmem
        simp [List.count_erase_self]
        omega
      · have hne : (n : Int) ≠ fd := by omega
        simp [List.count_erase_of_ne (Ne.symm hn), hne]
    · rw [settle, if_neg hh, Option.ite_none_right_eq_some] at h
      obtain ⟨hvoid, he⟩ := h
      cases he
      have hne : v ≠ fd := by
        intro he
        rw [he, hv] at hvoid
        cases hvoid
      simp [hne]
  | use v =>
    have he : held' = held := by
      simp only [settle] at h
      split_ifs at h
      · cases h
        rfl
      · cases h
        rfl
    simp [he]

theorem settleAll_count {void : Int → Bool} {held held' : List Nat} {cs : List HandleCall}
    (h : settleAll void held cs = some held') (fd : Nat) (hv : void fd = false) :
    cs.count (.open (some fd)) + held.count fd = cs.count (.close fd) + held'.count fd := by
  induction cs generalizing held with
  | nil =>
    cases h
    rfl
  | cons c cs ih =>
    obtain ⟨next, hc, hcs⟩ := Option.bind_eq_some_iff.mp h
    have h1 := settle_count hc fd hv
    have h2 := ih hcs
    rw [← List.singleton_append, List.count_append, List.count_append]
    omega

end HandleCall

/-- An object that may have a handle: what each of its calls makes of it with the system calls this
takes, the system calls of its destructor, whether it says that it is open, and whether it should
say so after a call. -/
structure HandleOwner (σ : Type u) (α : Type v) where
  step : σ → α → List HandleCall × σ
  destroy : σ → List HandleCall
  isOpen : σ → Bool
  shouldBeOpen : Bool → α → Bool

namespace HandleOwner

variable {σ : Type u} {α : Type v} (o : HandleOwner σ α)

/-- System calls of a sequence of calls with the destructor at its end. -/
def life (s : σ) : List α → List HandleCall
  | [] => o.destroy s
  | a :: as => (o.step s a).1 ++ life (o.step s a).2 as

/-- The object with whether it should be open. -/
def machine : Machine (σ × Bool) α where
  init s := s.2 = false
  step s a := some ((o.step s.1 a).2, o.shouldBeOpen s.2 a)

/-- After a call the object says whether it should be open. -/
def Tells (s : σ × Bool) (a : α) : Prop := o.isOpen (o.step s.1 a).2 = o.shouldBeOpen s.2 a

instance (s : σ × Bool) (a : α) : Decidable (o.Tells s a) := inferInstanceAs (Decidable (_ = _))

/-- What the life of an object without a handle should be like: it says at every moment whether it
should be open, each handle that it opens is closed once, and it closes and uses no others. -/
structure Managed (void : Int → Bool) (s : σ) (as : List α) : Prop where
  tells : o.machine.Along o.Tells (s, false) as
  settled : HandleCall.settleAll void [] (o.life s as) = some []

/-- An object that knows what it has at every moment, and settles it in the end. -/
structure Keeps (void : Int → Bool) (C : α → Prop) (I : σ → List Nat → Bool → Prop) : Prop where
  isOpen : ∀ s held was, I s held was → o.isOpen s = was
  step : ∀ s held was a, I s held was → C a →
    ∃ held', HandleCall.settleAll void held (o.step s a).1 = some held' ∧
      I (o.step s a).2 held' (o.shouldBeOpen was a)
  destroy : ∀ s held was, I s held was → HandleCall.settleAll void held (o.destroy s) = some []

variable {o} {void : Int → Bool} {C : α → Prop} {I : σ → List Nat → Bool → Prop}

theorem Keeps.tells_all (h : o.Keeps void C I) {s : σ} {held : List Nat} {was : Bool}
    (hI : I s held was) {as : List α} (has : ∀ a ∈ as, C a) :
    o.machine.Along o.Tells (s, was) as := by
  induction as generalizing s held was with
  | nil => trivial
  | cons a as ih =>
    obtain ⟨ha, has⟩ := List.forall_mem_cons.mp has
    obtain ⟨held', -, hI'⟩ := h.step s held was a hI ha
    constructor
    · exact h.isOpen _ _ _ hI'
    · rintro _ ⟨⟩
      exact ih hI' has

theorem Keeps.settle_life (h : o.Keeps void C I) {s : σ} {held : List Nat} {was : Bool}
    (hI : I s held was) {as : List α} (has : ∀ a ∈ as, C a) :
    HandleCall.settleAll void held (o.life s as) = some [] := by
  induction as generalizing s held was with
  | nil => exact h.destroy s held was hI
  | cons a as ih =>
    obtain ⟨ha, has⟩ := List.forall_mem_cons.mp has
    obtain ⟨held', hs, hI'⟩ := h.step s held was a hI ha
    rw [life, HandleCall.settleAll_append, hs, Option.bind_some]
    exact ih hI' has

theorem Keeps.managed (h : o.Keeps void C I) {s : σ} (hI : I s [] false) {as : List α}
    (has : ∀ a ∈ as, C a) : o.Managed void s as :=
  ⟨h.tells_all hI has, h.settle_life hI has⟩

/-- A system call of a call is one of the life. -/
theorem mem_life {s : σ} {as : List α} {a : α} (h : a ∈ as) {c : HandleCall}
    (hc : ∀ s, c ∈ (o.step s a).1) : c ∈ o.life s as := by
  induction as generalizing s with
  | nil => cases h
  | cons b as ih =>
    rw [life, List.mem_append]
    rcases List.mem_cons.mp h with rfl | h
    · exact .inl (hc s)
    · exact .inr (ih h)

/-- A system call that no call and no destructor makes. -/
theorem not_mem_life {c : HandleCall} (hstep : ∀ s a, c ∉ (o.step s a).1)
    (hdestroy : ∀ s, c ∉ o.destroy s) (s : σ) (as : List α) : c ∉ o.life s as := by
  induction as generalizing s with
  | nil => exact hdestroy s
  | cons a as ih =>
    rw [life, List.mem_append, not_or]
    exact ⟨hstep s a, ih _⟩

/-- Along a life that tells the truth there is no call behind which the object cannot. -/
theorem not_mem_of_tells {a : α} (ha : ∀ s, ¬o.Tells s a) {s : σ × Bool} {as : List α}
    (h : o.machine.Along o.Tells s as) : a ∉ as := by
  induction as generalizing s with
  | nil => exact List.not_mem_nil
  | cons b as ih =>
    rw [List.mem_cons, not_or]
    constructor
    · rintro rfl
      exact ha s h.1
    · exact ih (h.2 _ rfl)

/-- A handle that is opened in a managed life is closed in it. -/
theorem Managed.close_mem {s : σ} {as : List α} (h : o.Managed void s as) {fd : Nat}
    (hv : void fd = false) (hopen : .open (some fd) ∈ o.life s as) : .close fd ∈ o.life s as := by
  have hcount := HandleCall.settleAll_count h.settled fd hv
  have hpos := List.count_pos_iff.mpr hopen
  simp only [List.count_nil] at hcount
  exact List.count_pos_iff.mp (by omega)

end HandleOwner
end CtrlrFx.Base
