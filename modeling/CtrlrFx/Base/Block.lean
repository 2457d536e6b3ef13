import Mathlib.Data.List.TakeDrop

/-!
# Blocks of memory

A block is the list of its cells. `write` stores values one cell after another, as a copy
loop does, and `read` copies cells out; a store outside the block has no effect.
-/

namespace CtrlrFx.Base.Block

universe u

variable {α : Type u}

/-- Stores `xs` into the cells from `i` on. -/
def write (mem : List α) (i : Nat) : List α → List α
  | [] => mem
  | x :: xs => write (mem.set i x) (i + 1) xs

/-- The `n` cells from `i` on. -/
def read (mem : List α) (i n : Nat) : List α := (mem.drop i).take n

/-- Copies `n` cells from `src` on into those from `dst` on, the first one first. A cell outside of
the block is not copied. -/
def copyForwards (mem : List α) (dst src : Nat) : Nat → List α
  | 0 => mem
  | n + 1 =>
    copyForwards (match mem[src]? with | some x => mem.set dst x | none => mem)
      (dst + 1) (src + 1) n

@[simp] theorem write_nil (mem : List α) (i : Nat) : write mem i [] = mem := rfl

@[simp] theorem length_write (mem : List α) (i : Nat) (xs : List α) :
    (write mem i xs).length = mem.length := by
  induction xs generalizing mem i with
  | nil => rfl
  | cons x xs ih => rw [write, ih, List.length_set]

/-- Two copies to adjacent places are one copy. -/
theorem write_append (mem : List α) (i : Nat) (xs ys : List α) :
    write mem i (xs ++ ys) = write (write mem i xs) (i + xs.length) ys := by
  induction xs generalizing mem i with
  | nil => rfl
  | cons x xs ih =>
    rw [List.cons_append, write, write, ih, List.length_cons]
    congr 1
    omega

/-- Inside the block a copy replaces the cells it covers and no other. -/
theorem write_eq (mem : List α) (i : Nat) (xs : List α) (h : i + xs.length ≤ mem.length) :
    write mem i xs = mem.take i ++ xs ++ mem.drop (i + xs.length) := by
  induction xs generalizing mem i with
  | nil => simp
  | cons x xs ih =>
    rw [List.length_cons] at h
    have hi : i < mem.length := by omega
    have ht : (mem.set i x).take (i + 1) = mem.take i ++ [x] := by
      rw [List.take_succ_eq_append_getElem (by rwa [List.length_set]),
        List.take_set_of_le (by omega)]
      simp
    rw [write, ih _ _ (by rw [List.length_set]; omega), ht,
      List.drop_set_of_lt (by omega), List.length_cons]
    rw [List.append_assoc (mem.take i), List.singleton_append, Nat.add_right_comm, Nat.add_assoc]

/-- A cell after a copy, in the place of the copy or outside of it. -/
theorem getElem?_write (mem : List α) (i : Nat) (xs : List α) (h : i + xs.length ≤ mem.length)
    (j : Nat) :
    (write mem i xs)[j]? = if i ≤ j ∧ j < i + xs.length then xs[j - i]? else mem[j]? := by
  induction xs generalizing mem i with
  | nil =>
    rw [List.length_nil, if_neg (by omega), write_nil]
  | cons x xs ih =>
    rw [List.length_cons] at h ⊢
    rw [write, ih _ _ (by rw [List.length_set]; omega)]
    by_cases hj : i + 1 ≤ j ∧ j < i + 1 + xs.length
    · have hs : j - i = j - (i + 1) + 1 := by omega
      rw [if_pos hj, if_pos (by omega), hs, List.getElem?_cons_succ]
    · rw [if_neg hj]
      by_cases he : j = i
      · rw [he, if_pos (by omega), List.getElem?_set_self (by omega), Nat.sub_self]
        rfl
      · rw [if_neg (by omega), List.getElem?_set_ne (Ne.symm he)]

/-- Cells below a copy keep their values. -/
theorem take_write (mem : List α) (i j : Nat) (xs : List α) (hj : j ≤ i)
    (h : i + xs.length ≤ mem.length) : (write mem i xs).take j = mem.take j := by
  rw [write_eq mem i xs h, List.append_assoc, List.take_append_of_le_length, List.take_take,
    Nat.min_eq_left hj]
  rw [List.length_take]
  omega

/-- The cells up to the end of a copy are those below it followed by the copied values. -/
theorem take_write_end (mem : List α) (i : Nat) (xs : List α)
    (h : i + xs.length ≤ mem.length) :
    (write mem i xs).take (i + xs.length) = mem.take i ++ xs := by
  have hl : (mem.take i ++ xs).length = i + xs.length := by
    rw [List.length_append, List.length_take]
    omega
  rw [write_eq mem i xs h, ← hl, List.take_left]

@[simp] theorem read_zero (mem : List α) (i : Nat) : read mem i 0 = [] := List.take_zero

/-- A read begins with any shorter one. -/
theorem take_read (mem : List α) (i : Nat) {n m : Nat} (h : m ≤ n) :
    (read mem i n).take m = read mem i m := by
  rw [read, read, List.take_take, Nat.min_eq_left h]

theorem length_read_min (mem : List α) (i n : Nat) :
    (read mem i n).length = min n (mem.length - i) := by
  rw [read, List.length_take, List.length_drop]

theorem length_read (mem : List α) (i n : Nat) (h : i + n ≤ mem.length) :
    (read mem i n).length = n := by
  rw [length_read_min]
  omega

/-- Nothing is read at the end of a block, or behind it. -/
theorem read_min (mem : List α) (i n : Nat) : read mem (min i mem.length) n = read mem i n := by
  rcases Nat.le_total i mem.length with h | h
  · rw [Nat.min_eq_left h]
  · rw [Nat.min_eq_right h, read, read, List.drop_length, List.drop_eq_nil_of_le h]

/-- What was copied in is what is copied out. -/
theorem read_write (mem : List α) (i : Nat) (xs : List α) (h : i + xs.length ≤ mem.length) :
    read (write mem i xs) i xs.length = xs := by
  have hl : (mem.take i).length = i := by
    rw [List.length_take]
    omega
  rw [read, write_eq mem i xs h, List.append_assoc, List.drop_left' hl, List.take_left]

/-- A read is decided by any prefix of the block that covers it. -/
theorem read_take (mem : List α) (i n m : Nat) (h : i + n ≤ m) :
    read (mem.take m) i n = read mem i n := by
  rw [read, read, List.drop_take, List.take_take, Nat.min_eq_left (by omega)]

/-- A read is decided by the cells that it covers. -/
theorem read_congr {mem mem' : List α} {i n : Nat}
    (h : ∀ j, i ≤ j ∧ j < i + n → mem'[j]? = mem[j]?) : read mem' i n = read mem i n := by
  apply List.ext_getElem?
  intro k
  rw [read, read, List.getElem?_take, List.getElem?_take, List.getElem?_drop, List.getElem?_drop]
  by_cases hk : k < n
  · rw [if_pos hk, if_pos hk, h (i + k) (by omega)]
  · rw [if_neg hk, if_neg hk]

/-- What follows a cell is what is read from there and what follows that. -/
theorem drop_eq_read (mem : List α) (i n : Nat) :
    mem.drop i = read mem i n ++ mem.drop (i + n) := by
  rw [read, ← List.drop_drop, List.take_append_drop]

/-- Reading on after a read. -/
theorem read_add (mem : List α) (i n m : Nat) :
    read mem i (n + m) = read mem i n ++ read mem (i + n) m := by
  rw [read, read, read, List.take_add, List.drop_drop]

theorem read_succ (mem : List α) (i n : Nat) (h : i < mem.length) :
    read mem i (n + 1) = mem[i] :: read mem (i + 1) n := by
  rw [read, read, List.drop_eq_getElem_cons h, List.take_succ_cons]

/-- Towards the front, cells are copied before they are overwritten. -/
theorem copyForwards_eq (mem : List α) {dst src n : Nat} (h : dst ≤ src)
    (hn : src + n ≤ mem.length) : copyForwards mem dst src n = write mem dst (read mem src n) := by
  induction n generalizing mem dst src with
  | zero =>
    rw [read_zero]
    rfl
  | succ n ih =>
    have hs : src < mem.length := by omega
    have hr : read (mem.set dst mem[src]) (src + 1) n = read mem (src + 1) n := by
      rw [read, List.drop_set_of_lt (by omega), read]
    rw [read_succ _ _ _ hs, write, ← hr, ← ih _ (by omega) (by rw [List.length_set]; omega),
      copyForwards, List.getElem?_eq_getElem hs]

end CtrlrFx.Base.Block
