import Mathlib.Data.List.Basic
import Mathlib.Order.Bounds.Defs

/-!
# Aligned layouts

Where values of given sizes come to lie when each is placed at the next multiple of its own
size. Nothing here depends on how much memory there is.
-/

namespace CtrlrFx.Base

/-- The multiple of `n` that `p` is rounded up to. -/
def roundUp (n p : Nat) : Nat := (p + n - 1) / n * n

theorem dvd_roundUp (n p : Nat) : n ∣ roundUp n p := Nat.dvd_mul_left _ _

theorem le_roundUp {n : Nat} (p : Nat) (hn : 0 < n) : p ≤ roundUp n p := by
  have h := Nat.div_add_mod (p + n - 1) n
  have hm := Nat.mod_lt (p + n - 1) hn
  unfold roundUp
  rw [Nat.mul_comm] at h
  omega

theorem roundUp_lt {n : Nat} (p : Nat) (hn : 0 < n) : roundUp n p < p + n := by
  have h := Nat.div_mul_le_self (p + n - 1) n
  unfold roundUp
  omega

/-- It is the smallest multiple of `n` that is not below `p`. -/
theorem isLeast_roundUp {n : Nat} (p : Nat) (hn : 0 < n) :
    IsLeast {m | n ∣ m ∧ p ≤ m} (roundUp n p) := by
  refine ⟨⟨dvd_roundUp n p, le_roundUp p hn⟩, fun m ⟨⟨k, hk⟩, hm⟩ ↦ ?_⟩
  have hl := roundUp_lt p hn
  obtain ⟨j, hj⟩ := dvd_roundUp n p
  rw [hj] at hl ⊢
  rw [hk] at hm ⊢
  by_contra hlt
  have hkj : k < j := by
    by_contra hge
    exact hlt (Nat.mul_le_mul_left n (Nat.le_of_not_lt hge))
  have hs : n * (k + 1) ≤ n * j := Nat.mul_le_mul_left n hkj
  rw [Nat.mul_add, Nat.mul_one] at hs
  omega

theorem roundUp_of_dvd {n p : Nat} (hn : 0 < n) (h : n ∣ p) : roundUp n p = p :=
  Nat.le_antisymm ((isLeast_roundUp p hn).2 ⟨h, Nat.le_refl p⟩) (le_roundUp p hn)

/-- A position that is no multiple is moved up by what it lacks. -/
theorem roundUp_eq {n : Nat} (p : Nat) (hn : 0 < n) :
    roundUp n p = if p % n = 0 then p else p + (n - p % n) := by
  have hm := Nat.mod_lt p hn
  have hd := Nat.div_add_mod p n
  split
  · next h => exact roundUp_of_dvd hn (Nat.dvd_of_mod_eq_zero h)
  · next h =>
    have hq : p + n - 1 = n * (p / n) + (p % n - 1 + n) := by omega
    have hz : (p % n - 1 + n) / n = 1 := by
      rw [Nat.add_div_right _ hn, Nat.div_eq_of_lt (by omega)]
    rw [roundUp, hq, Nat.mul_add_div hn, hz, Nat.add_mul, Nat.one_mul, Nat.mul_comm]
    omega

/-- Positions may be counted from any multiple. -/
theorem roundUp_add {n o : Nat} (p : Nat) (hn : 0 < n) (h : n ∣ o) :
    roundUp n (o + p) = o + roundUp n p := by
  have hm : (o + p) % n = p % n := by
    rw [Nat.add_mod, Nat.mod_eq_zero_of_dvd h, Nat.zero_add, Nat.mod_mod]
  rw [roundUp_eq _ hn, roundUp_eq _ hn, hm]
  split
  · rfl
  · omega

/-- Two positions that are `o` apart lack the same only if `o` is a multiple. -/
theorem roundUp_sub_eq_iff {n o : Nat} (p : Nat) (hn : 0 < n) :
    roundUp n p - p = roundUp n (o + p) - (o + p) ↔ n ∣ o := by
  constructor
  · intro heq
    have h1 := le_roundUp p hn
    have h2 := le_roundUp (o + p) hn
    have hsum : roundUp n (o + p) = o + roundUp n p := by omega
    have hd := dvd_roundUp n (o + p)
    rw [hsum] at hd
    exact (Nat.dvd_add_left (dvd_roundUp n p)).mp hd
  · intro hd
    rw [roundUp_add p hn hd]
    omega

/-- Offsets of values of the given sizes, the first not below `p` and each not below the end
of the one before. -/
def layout (p : Nat) : List Nat → List Nat
  | [] => []
  | n :: ns => roundUp n p :: layout (roundUp n p + n) ns

/-- Where the last of these values ends. -/
def layoutEnd (p : Nat) : List Nat → Nat
  | [] => p
  | n :: ns => layoutEnd (roundUp n p + n) ns

theorem le_layoutEnd {ns : List Nat} (p : Nat) (h : ∀ n ∈ ns, 0 < n) : p ≤ layoutEnd p ns := by
  induction ns generalizing p with
  | nil => exact Nat.le_refl p
  | cons n ns ih =>
    have hl := le_roundUp p (h n List.mem_cons_self)
    have ht := ih (roundUp n p + n) fun m hm ↦ h m (List.mem_cons_of_mem _ hm)
    rw [layoutEnd]
    omega

/-- The places that these values take up, in memory. -/
def Occupied (p : Nat) : List Nat → Nat → Prop
  | [], _ => False
  | n :: ns, i => (roundUp n p ≤ i ∧ i < roundUp n p + n) ∨ Occupied (roundUp n p + n) ns i

theorem Occupied.bounds {ns : List Nat} {p i : Nat} (hn : ∀ n ∈ ns, 0 < n)
    (h : Occupied p ns i) : p ≤ i ∧ i < layoutEnd p ns := by
  induction ns generalizing p with
  | nil => exact h.elim
  | cons n ns ih =>
    have hle := le_roundUp p (hn n List.mem_cons_self)
    have hns : ∀ m ∈ ns, 0 < m := fun m hm ↦ hn m (List.mem_cons_of_mem _ hm)
    rw [layoutEnd]
    rcases h with hfirst | hrest
    · have hend := le_layoutEnd (roundUp n p + n) hns
      omega
    · obtain ⟨hlo, hhi⟩ := ih hns hrest
      exact ⟨by omega, hhi⟩

end CtrlrFx.Base
