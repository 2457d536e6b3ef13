import CtrlrFx.Base.Block
import Mathlib.Logic.Function.Basic

/-!
# Stretches of addressed memory

A memory gives a value to each address. `cells` is the block that lies at an address, and `store`
puts values at one address after another. A store inside a stretch is a store into its block.
-/

namespace CtrlrFx.Base.Window

universe u

variable {α : Type u}

/-- The `n` values from address `a` on. -/
def cells (mem : Nat → α) (a n : Nat) : List α := (List.range' a n).map mem

/-- Stores `xs` at the addresses from `a` on, the first one first. -/
def store (mem : Nat → α) (a : Nat) : List α → Nat → α
  | [] => mem
  | x :: xs => store (Function.update mem a x) (a + 1) xs

@[simp] theorem length_cells (mem : Nat → α) (a n : Nat) : (cells mem a n).length = n := by
  rw [cells, List.length_map, List.length_range']

theorem cells_succ (mem : Nat → α) (a n : Nat) :
    cells mem a (n + 1) = mem a :: cells mem (a + 1) n := by
  rw [cells, List.range'_succ, List.map_cons, cells]

@[simp] theorem getElem_cells (mem : Nat → α) (a n i : Nat) (h : i < (cells mem a n).length) :
    (cells mem a n)[i] = mem (a + i) := by
  simp [cells]

/-- A store into a stretch is a store into its block. -/
theorem cells_update (mem : Nat → α) {a n b : Nat} (v : α) (hb : a ≤ b) :
    cells (Function.update mem b v) a n = (cells mem a n).set (b - a) v := by
  apply List.ext_getElem
  · simp
  · intro i h₁ h₂
    rw [getElem_cells, List.getElem_set, getElem_cells]
    by_cases he : b - a = i
    · rw [if_pos he, (by omega : a + i = b), Function.update_self]
    · rw [if_neg he, Function.update_of_ne (by omega)]

/-- Values that are stored at once are those stored one after another. -/
theorem store_apply (mem : Nat → α) (a : Nat) (xs : List α) (i : Nat) :
    store mem a xs i = if a ≤ i then xs.getD (i - a) (mem i) else mem i := by
  induction xs generalizing mem a with
  | nil => simp [store]
  | cons x xs ih =>
    rw [store, ih]
    by_cases h : a + 1 ≤ i
    · have hs : i - a = i - (a + 1) + 1 := by omega
      rw [if_pos h, if_pos (by omega), hs, List.getD_cons_succ, Function.update_of_ne (by omega)]
    · rw [if_neg h]
      by_cases he : i = a
      · rw [he, if_pos (Nat.le_refl a), Function.update_self, Nat.sub_self, List.getD_cons_zero]
      · rw [if_neg (by omega), Function.update_of_ne he]

end CtrlrFx.Base.Window
