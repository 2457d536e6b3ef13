import CtrlrFx.Base.Words

/-!
# Pointers to items

Addresses have 64 bits. A pointer to items of a fixed size moves by whole items, and comes out at
the start of the address space where it leaves the end; the difference of two pointers counts the
items between them. `item` is the address of an item of an array, without a wrap.
-/

namespace CtrlrFx.Base

/-- The size of an item in bytes. -/
class Item (T : Type) where
  size : Nat
  size_pos : 0 < size

instance : Item UInt8 := ⟨1, Nat.one_pos⟩

instance : Item UInt32 := ⟨4, by decide⟩

namespace Pointer

section
variable (T : Type) [Item T]

/-- Address of item `i` of an array at `a`. -/
def item (a i : Nat) : Nat := a + i * Item.size T

/-- `p + n`. -/
def add (p n : Nat) : Nat := item T p n % 2 ^ 64

/-- `p + d`, for a signed `d`. -/
def move (p : Nat) (d : Int) : Nat := toSize (p + d * Item.size T)

/-- `p - n`. -/
def back (p n : Nat) : Nat := toSize ((p : Int) - (n * Item.size T : Nat))

/-- `hi - lo`, as a `size_t`. -/
def diff (hi lo : Nat) : Nat := toSize (((hi : Int) - lo).tdiv (Item.size T))

end

section
variable {T : Type} [Item T] {a i j n : Nat}

@[simp] theorem item_zero (a : Nat) : item T a 0 = a := by
  rw [item, Nat.zero_mul, Nat.add_zero]

theorem item_item (a i n : Nat) : item T (item T a i) n = item T a (i + n) := by
  rw [item, item, item, Nat.add_mul, Nat.add_assoc]

theorem le_item (a i : Nat) : a ≤ item T a i := Nat.le_add_right _ _

/-- Items lie in the order of their numbers. -/
theorem item_le_item : item T a i ≤ item T a j ↔ i ≤ j := by
  rw [item, item, Nat.add_le_add_iff_left, Nat.mul_le_mul_right_iff Item.size_pos]

theorem item_lt_item : item T a i < item T a j ↔ i < j := by
  rw [← Nat.not_le, item_le_item, Nat.not_le]

theorem item_inj : item T a i = item T a j ↔ i = j := by
  rw [Nat.le_antisymm_iff, item_le_item, item_le_item, ← Nat.le_antisymm_iff]

/-- Items have addresses, so that there are no more of them. -/
theorem le_of_item (a i : Nat) : i ≤ item T a i := by
  have hp : 0 < Item.size T := Item.size_pos
  rw [item]
  exact Nat.le_add_left_of_le (Nat.le_mul_of_pos_right i hp)

/-- Inside the address space a pointer moves from item to item. -/
theorem add_item (h : item T a (i + n) < 2 ^ 64) : add T (item T a i) n = item T a (i + n) := by
  rw [add, item_item, Nat.mod_eq_of_lt h]

theorem add_base (h : item T a n < 2 ^ 64) : add T a n = item T a n := Nat.mod_eq_of_lt h

theorem move_base (h : item T a n < 2 ^ 64) : move T a n = item T a n := by
  have he : (a : Int) + n * Item.size T = (item T a n : Nat) := by
    rw [item]
    push_cast
    rfl
  have hs := toSize_of_lt (item T a n : Nat) (Int.natCast_nonneg _) (by omega)
  rw [move, he]
  exact Int.ofNat_inj.mp hs

theorem back_item (h : item T a (i + n) < 2 ^ 64) : back T (item T a (i + n)) n = item T a i := by
  have he : ((item T a (i + n) : Nat) : Int) - (n * Item.size T : Nat) = (item T a i : Nat) := by
    rw [← item_item, item]
    push_cast
    omega
  have hle : item T a i ≤ item T a (i + n) := item_le_item.mpr (Nat.le_add_right i n)
  have hs := toSize_of_lt (item T a i : Nat) (Int.natCast_nonneg _) (by omega)
  rw [back, he]
  exact Int.ofNat_inj.mp hs

/-- What lies between two items is counted. -/
theorem diff_item (hj : j ≤ i) (h : item T a i < 2 ^ 64) :
    diff T (item T a i) (item T a j) = i - j := by
  have hw : (Item.size T : Int) ≠ 0 := Int.natCast_ne_zero.mpr (Nat.ne_of_gt Item.size_pos)
  have hd : ((item T a i : Nat) : Int) - (item T a j : Nat) =
      (i - j : Nat) * (Item.size T : Int) := by
    obtain ⟨k, rfl⟩ := Nat.exists_eq_add_of_le hj
    rw [← item_item, item, Nat.add_sub_cancel_left]
    push_cast
    omega
  have hi := le_of_item (T := T) a i
  have hs := toSize_of_lt (i - j : Nat) (Int.natCast_nonneg _) (by omega)
  rw [diff, hd, Int.mul_tdiv_cancel _ hw]
  exact Int.ofNat_inj.mp hs

theorem diff_base (h : item T a i < 2 ^ 64) : diff T (item T a i) a = i := by
  have hd := diff_item (T := T) (a := a) (Nat.zero_le i) h
  rwa [item_zero, Nat.sub_zero] at hd

end

end Pointer
end CtrlrFx.Base
