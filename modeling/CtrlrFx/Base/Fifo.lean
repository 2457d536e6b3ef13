import CtrlrFx.Base.Block
import Mathlib.Data.List.Rotate

/-!
# Bounded first-in first-out queues and their ring representation

`Fifo.Run` is the abstract queue: a history of insertions, removals and looks at the
front, never longer than its bound. `Ring.contents` reads the queue out of a fixed block
of memory from a start index, wrapping at the end of the block; `Ring.store` and
`Ring.fetch` go around the ring one cell at a time.
-/

namespace CtrlrFx.Base

universe u

namespace Fifo

variable {α : Type u}

/-- One operation on the abstract queue, with the value it inserts or observes. -/
inductive Event (α : Type u) where
  | enq (v : α)
  | deq (v : α)
  | peek (v : α)

/-- Effect of one operation on a queue of at most `cap` values. -/
inductive Step (cap : Nat) : List α → Event α → List α → Prop where
  | enq {q : List α} (v : α) : q.length < cap → Step cap q (.enq v) (q ++ [v])
  | deq {q : List α} (v : α) : Step cap (v :: q) (.deq v) q
  | peek {q : List α} (v : α) : Step cap (v :: q) (.peek v) (v :: q)

/-- A history of operations, oldest first, and the queue it leads to. -/
inductive Run (cap : Nat) (q₀ : List α) : List (Event α) → List α → Prop where
  | nil : Run cap q₀ [] q₀
  | snoc {es : List (Event α)} {q q' : List α} {e : Event α} :
      Run cap q₀ es q → Step cap q e q' → Run cap q₀ (es ++ [e]) q'

/-- Values inserted by a history, in order. -/
def inserted (es : List (Event α)) : List α :=
  es.filterMap fun
    | .enq v => some v
    | _ => none

/-- Values removed by a history, in order. -/
def removed (es : List (Event α)) : List α :=
  es.filterMap fun
    | .deq v => some v
    | _ => none

theorem inserted_enq (es : List (Event α)) (v : α) :
    inserted (es ++ [.enq v]) = inserted es ++ [v] := List.filterMap_append

theorem inserted_deq (es : List (Event α)) (v : α) :
    inserted (es ++ [.deq v]) = inserted es := by
  simp [inserted]

theorem removed_enq (es : List (Event α)) (v : α) : removed (es ++ [.enq v]) = removed es := by
  simp [removed]

theorem removed_deq (es : List (Event α)) (v : α) :
    removed (es ++ [.deq v]) = removed es ++ [v] := List.filterMap_append

/-- Nothing is lost, duplicated or reordered: what was there and what went in is what
came out followed by what is left. -/
theorem Run.conserves {cap : Nat} {q₀ q : List α} {es : List (Event α)}
    (h : Run cap q₀ es q) : q₀ ++ inserted es = removed es ++ q := by
  induction h with
  | nil => simp [inserted, removed]
  | snoc _ hs ih =>
    cases hs with
    | enq v _ =>
      simp only [inserted, removed, List.filterMap_append] at ih ⊢
      simp [← List.append_assoc, ih]
    | deq v =>
      simp only [inserted, removed, List.filterMap_append] at ih ⊢
      simp [ih]
    | peek v =>
      simp only [inserted, removed, List.filterMap_append] at ih ⊢
      simp [ih]

/-- Any queue within its bound has a history that fills it. -/
theorem Run.of_length_le {cap : Nat} {q : List α} (h : q.length ≤ cap) :
    Run cap [] (q.map Event.enq) q := by
  induction q using List.reverseRecOn with
  | nil => exact .nil
  | append_singleton q v ih =>
    rw [List.length_append, List.length_singleton] at h
    rw [List.map_append, List.map_singleton]
    exact (ih (by omega)).snoc (.enq v (by omega))

/-- A history that takes values from the front of the queue leaves the others in it. -/
theorem Run.deqs {cap : Nat} {q₀ q : List α} {es : List (Event α)} (xs : List α)
    (h : Run cap q₀ es (xs ++ q)) : Run cap q₀ (es ++ xs.map .deq) q := by
  induction xs generalizing es with
  | nil => simpa using h
  | cons x xs ih =>
    have hx := ih (h.snoc (.deq x))
    rwa [List.append_assoc] at hx

/-- A history never overfills the queue. -/
theorem Run.length_le {cap : Nat} {q₀ q : List α} {es : List (Event α)}
    (h : Run cap q₀ es q) (h₀ : q₀.length ≤ cap) : q.length ≤ cap := by
  induction h with
  | nil => exact h₀
  | snoc _ hs ih =>
    cases hs with
    | enq v hl =>
      rw [List.length_append, List.length_singleton]
      omega
    | deq v =>
      rw [List.length_cons] at ih
      omega
    | peek v => exact ih

end Fifo

namespace Ring

variable {α : Type u}

/-- Index after `i` in a ring of `cap` slots. -/
def next (cap i : Nat) : Nat := if i + 1 = cap then 0 else i + 1

/-- The `n` values of a ring from index `get` on, wrapping at the end of the block. -/
def contents (buf : List α) (get n : Nat) : List α := (buf.rotate get).take n

theorem next_lt {cap i : Nat} (h : i < cap) : next cap i < cap := by
  unfold next
  split <;> omega

theorem next_eq_mod {cap i : Nat} (h : i < cap) : next cap i = (i + 1) % cap := by
  unfold next
  split
  · next he => rw [he, Nat.mod_self]
  · exact (Nat.mod_eq_of_lt (by omega)).symm

/-- Advancing the end of a window of `n` slots is a window of `n + 1`. -/
theorem next_add_mod {cap : Nat} (get n : Nat) (h : 0 < cap) :
    next cap ((get + n) % cap) = (get + (n + 1)) % cap := by
  rw [next_eq_mod (Nat.mod_lt _ h), Nat.mod_add_mod, Nat.add_assoc]

/-- Advancing the start of a window keeps its end. -/
theorem next_add_pred_mod {cap get n : Nat} (hg : get < cap) (hn : 0 < n) :
    (next cap get + (n - 1)) % cap = (get + n) % cap := by
  rw [next_eq_mod hg, Nat.mod_add_mod]
  congr 1
  omega

@[simp] theorem contents_zero (buf : List α) (get : Nat) : contents buf get 0 = [] := rfl

theorem length_contents {buf : List α} {n : Nat} (get : Nat) (h : n ≤ buf.length) :
    (contents buf get n).length = n := by
  simp [contents, h]

/-- Slot `i` of the window is the memory cell at that distance from the start. -/
theorem getElem?_contents {buf : List α} {get n i : Nat} (hi : i < n) (hn : n ≤ buf.length) :
    (contents buf get n)[i]? = buf[(get + i) % buf.length]? := by
  rw [contents, List.getElem?_take_of_lt hi, List.getElem?_rotate (by omega),
    Nat.add_comm]

/-- Distinct offsets within one turn of the ring are distinct slots. -/
theorem add_mod_ne {cap get i j : Nat} (hij : i < j) (hj : j < cap + i) :
    (get + i) % cap ≠ (get + j) % cap := by
  intro he
  have hd := Nat.sub_mod_eq_zero_of_mod_eq he.symm
  have hs : get + j - (get + i) = j - i := by omega
  rw [hs, Nat.mod_eq_of_lt (by omega)] at hd
  omega

/-- Storing outside the window leaves the window as it was. -/
theorem contents_set_of_le {buf : List α} {get n j : Nat} (v : α) (hn : n ≤ j)
    (hj : j < buf.length) :
    contents (buf.set ((get + j) % buf.length) v) get n = contents buf get n := by
  apply List.ext_getElem?
  intro i
  by_cases hi : i < n
  · rw [getElem?_contents hi (by rw [List.length_set]; omega),
      getElem?_contents hi (by omega), List.length_set, List.getElem?_set_ne]
    exact (add_mod_ne (by omega) (by omega)).symm
  · rw [contents, contents, List.getElem?_take_eq_none (by omega),
      List.getElem?_take_eq_none (by omega)]

/-- Storing right after the window and widening it appends the value. -/
theorem contents_push {buf : List α} {get n : Nat} (v : α) (hn : n < buf.length) :
    contents (buf.set ((get + n) % buf.length) v) get (n + 1) = contents buf get n ++ [v] := by
  have hm : (get + n) % buf.length < buf.length := Nat.mod_lt _ (by omega)
  have hl : (contents (buf.set ((get + n) % buf.length) v) get (n + 1))[n]? = some v := by
    rw [getElem?_contents (by omega) (by rw [List.length_set]; omega), List.length_set,
      List.getElem?_set_self hm]
  have ht : contents (buf.set ((get + n) % buf.length) v) get (n + 1) =
      contents (buf.set ((get + n) % buf.length) v) get n ++ [v] := by
    have hlen : n < ((buf.set ((get + n) % buf.length) v).rotate get).length := by simpa using hn
    rw [contents, List.take_succ_eq_append_getElem hlen]
    rw [contents, List.getElem?_take_of_lt (by omega), List.getElem?_eq_getElem hlen] at hl
    rw [Option.some.inj hl, contents]
  rw [ht, contents_set_of_le v (Nat.le_refl n) hn]

/-- The first value of a nonempty window is the cell at its start. -/
theorem contents_pop {buf : List α} {get n : Nat} (hg : get < buf.length) (hn : 0 < n)
    (hl : n ≤ buf.length) :
    contents buf get n = buf[get] :: contents buf (next buf.length get) (n - 1) := by
  apply List.ext_getElem?
  intro i
  cases i with
  | zero =>
    rw [getElem?_contents hn hl, Nat.add_zero, Nat.mod_eq_of_lt hg,
      List.getElem?_eq_getElem hg, List.getElem?_cons_zero]
  | succ i =>
    rw [List.getElem?_cons_succ]
    by_cases hi : i + 1 < n
    · rw [getElem?_contents hi hl, getElem?_contents (by omega) (by omega),
        next_eq_mod hg, Nat.mod_add_mod]
      congr 2
      omega
    · rw [contents, contents, List.getElem?_take_eq_none (by omega),
        List.getElem?_take_eq_none (by omega)]

/-- Stores `xs` one after another from index `p` on, with the index after the last. -/
def store (buf : List α) (p : Nat) : List α → List α × Nat
  | [] => (buf, p)
  | x :: xs => store (buf.set p x) (next buf.length p) xs

/-- Copies `n` cells out one after another from index `p` on, with the index after the
last. -/
def fetch (buf : List α) (p : Nat) : Nat → List α × Nat
  | 0 => ([], p)
  | n + 1 => (buf[p]?.toList ++ (fetch buf (next buf.length p) n).1,
      (fetch buf (next buf.length p) n).2)

theorem store_append (buf : List α) (p : Nat) (xs ys : List α) :
    store buf p (xs ++ ys) = store (store buf p xs).1 (store buf p xs).2 ys := by
  induction xs generalizing buf p with
  | nil => rfl
  | cons x xs ih => rw [List.cons_append, store, ih, store]

/-- Short of the end of the block it is an ordinary copy. -/
theorem store_of_lt {buf : List α} {p : Nat} {xs : List α} (h : p + xs.length < buf.length) :
    store buf p xs = (Block.write buf p xs, p + xs.length) := by
  induction xs generalizing buf p with
  | nil => rfl
  | cons x xs ih =>
    rw [List.length_cons] at h
    have hn : next buf.length p = p + 1 := if_neg (by omega)
    rw [store, hn, ih (by rw [List.length_set]; omega), Block.write, List.length_cons]
    congr 1
    omega

/-- A copy that ends where the block does leaves the index at its start. -/
theorem store_of_eq {buf : List α} {p : Nat} {xs : List α} (hp : p < buf.length)
    (h : p + xs.length = buf.length) : store buf p xs = (Block.write buf p xs, 0) := by
  induction xs generalizing buf p with
  | nil =>
    rw [List.length_nil] at h
    omega
  | cons x xs ih =>
    rw [List.length_cons] at h
    by_cases he : p + 1 = buf.length
    · obtain rfl : xs = [] := List.eq_nil_of_length_eq_zero (by omega)
      rw [store, next, if_pos he, store, Block.write, Block.write]
    · rw [store, next, if_neg he, ih (by rw [List.length_set]; omega)
        (by rw [List.length_set]; omega), Block.write]

theorem fetch_add (buf : List α) (p n m : Nat) :
    fetch buf p (n + m) =
      ((fetch buf p n).1 ++ (fetch buf (fetch buf p n).2 m).1,
        (fetch buf (fetch buf p n).2 m).2) := by
  induction n generalizing p with
  | zero => simp [fetch]
  | succ n ih => rw [Nat.succ_add, fetch, ih, fetch, List.append_assoc]

theorem fetch_of_lt {buf : List α} {p n : Nat} (h : p + n < buf.length) :
    fetch buf p n = (Block.read buf p n, p + n) := by
  induction n generalizing p with
  | zero => simp [fetch]
  | succ n ih =>
    have hn : next buf.length p = p + 1 := if_neg (by omega)
    have hp : p < buf.length := by omega
    rw [fetch, hn, ih (by omega), Block.read_succ _ _ _ hp, List.getElem?_eq_getElem hp]
    congr 1
    omega

theorem fetch_of_eq {buf : List α} {p n : Nat} (hp : p < buf.length)
    (h : p + n = buf.length) : fetch buf p n = (Block.read buf p n, 0) := by
  obtain ⟨m, rfl⟩ : ∃ m, n = m + 1 := ⟨n - 1, by omega⟩
  have hl : p + m < buf.length := by omega
  have hs : next buf.length (p + m) = 0 := if_pos (by omega)
  rw [fetch_add, fetch_of_lt hl, Block.read_add]
  simp only [fetch, hs, List.getElem?_eq_getElem hl, Block.read_succ _ _ _ hl, Block.read_zero,
    Option.toList_some, List.append_nil]

end Ring
end CtrlrFx.Base
