import CtrlrFx.Base.Block
import CtrlrFx.Base.Machine
import CtrlrFx.Base.Words

/-!
# Stacks

`CtrlrFx/Stack.h`: a fixed block of cells that is filled from its first one on. A block is pushed
item by item, and popped item by item from the end of the caller's array to its begin, so that
it comes back in the order in which it was pushed.
-/

namespace CtrlrFx.Data
open Base

/-- Members of the stack; `CtrlrFx/Stack.h:36–40`. The cells from `base_` on are `mem`. -/
structure Stack (T : Type) where
  sz : Nat
  cap : Nat
  mem : List T
  own : Bool
  deriving DecidableEq, Repr

namespace Stack

variable {T : Type}

/-! ### Constructors -/

/-- `CtrlrFx/Stack.h:74–77`. -/
def empty : Stack T := { sz := 0, cap := 0, mem := [], own := false }

/-- A stack on newly allocated cells, whose contents are whatever `fresh` holds;
`CtrlrFx/Stack.h:79–83`. -/
def alloc (fresh : List T) : Stack T :=
  { sz := 0, cap := fresh.length, mem := fresh, own := true }

/-- A stack on the cells of the caller, which it does not own whatever `own` says;
`CtrlrFx/Stack.h:85–89`. -/
def fixed (buf : List T) (_own : Bool) : Stack T :=
  { sz := 0, cap := buf.length, mem := buf, own := false }

/-- `CtrlrFx/Stack.h:123–132`. -/
def set (_ : Stack T) (buf : List T) (own : Bool) : Stack T :=
  { sz := 0, cap := buf.length, mem := buf, own := own }

/-- `CtrlrFx/Stack.h:115–119`. -/
def resize (s : Stack T) (fresh : List T) : Stack T := s.set fresh true

/-! ### Queries -/

/-- `CtrlrFx/Stack.h:55`. -/
def size (s : Stack T) : Nat := s.sz

/-- `CtrlrFx/Stack.h:56`. -/
def capacity (s : Stack T) : Nat := s.cap

/-- `CtrlrFx/Stack.h:61`, as the `size_t` it is computed in. -/
def remaining (s : Stack T) : Nat := ptrDiff s.cap s.sz

/-- `CtrlrFx/Stack.h:62`. -/
def available (s : Stack T) : Nat := s.sz

/-! ### Items -/

/-- `CtrlrFx/Stack.h:137–145`. -/
def push (s : Stack T) (v : T) : Bool × Stack T :=
  if s.sz = s.cap then (false, s)
  else (true, { s with mem := s.mem.set s.sz v, sz := s.sz + 1 })

/-- The loop of the block push; `CtrlrFx/Stack.h:156–157`. -/
def pushLoop (s : Stack T) : List T → Stack T
  | [] => s
  | v :: buf => { s with mem := s.mem.set s.sz v, sz := s.sz + 1 }.pushLoop buf

/-- Pushes as many items of an array as there is room for; `CtrlrFx/Stack.h:151–160`. -/
def pushBlock (s : Stack T) (buf : List T) : Nat × Stack T :=
  let n := min buf.length s.remaining
  (n, s.pushLoop (buf.take n))

/-- The top item, or zero for none; `CtrlrFx/Stack.h:166–170`. -/
def pop [Zero T] (s : Stack T) : T × Stack T :=
  if s.sz > 0 then (s.mem.getD (s.sz - 1) 0, { s with sz := s.sz - 1 }) else (0, s)

/-- The top item, if there is one; `CtrlrFx/Stack.h:181–189`. -/
def popTo (s : Stack T) : Option T × Stack T :=
  if s.sz = 0 then (none, s) else (s.mem[s.sz - 1]?, { s with sz := s.sz - 1 })

/-- The loop of the block pop, which goes down in the caller's array from offset `p` on;
`CtrlrFx/Stack.h:204–205`. A cell outside of the memory is not copied. -/
def popLoop (s : Stack T) (buf : List T) (p : Int) : Nat → List T × Stack T
  | 0 => (buf, s)
  | nx + 1 =>
    let buf' := match s.mem[s.sz - 1]? with
      | some v => buf.set p.toNat v
      | none => buf
    { s with sz := s.sz - 1 }.popLoop buf' (p - 1) nx

/-- Pops up to `n` items into the array of the caller, which is given back as it is then;
`CtrlrFx/Stack.h:197–208`. -/
def popBlock (s : Stack T) (buf : List T) (n : Nat) : Nat × List T × Stack T :=
  let n := min n s.available
  (n, s.popLoop buf ((n : Int) - 1) n)

/-! ### The stack as a list -/

/-- The stack stands for a list, whose last item is on top. -/
structure Rep (cap : Nat) (s : Stack T) (l : List T) : Prop where
  cap_eq : s.cap = cap
  length_mem : s.mem.length = cap
  sz_le : s.sz ≤ cap
  items : s.mem.take s.sz = l

namespace Rep

variable {cap : Nat} {s : Stack T} {l : List T}

theorem length_eq (h : Rep cap s l) : l.length = s.sz := by
  rw [← h.items, List.length_take, h.length_mem, Nat.min_eq_left h.sz_le]

theorem remaining_eq (h : Rep cap s l) : s.remaining = cap - l.length := by
  rw [remaining, h.cap_eq, h.length_eq, ptrDiff_of_le h.sz_le]

/-- What lies in the cells below the size is the list. -/
theorem read_eq (h : Rep cap s l) {i n : Nat} (hn : i + n ≤ s.sz) :
    Block.read s.mem i n = Block.read l i n := by
  rw [← h.items, Block.read_take _ _ _ _ hn]

/-- The top item. -/
theorem getElem?_top (h : Rep cap s l) (hs : 0 < s.sz) : s.mem[s.sz - 1]? = l.getLast? := by
  rw [List.getLast?_eq_getElem?, h.length_eq, ← h.items, List.getElem?_take_of_lt (by omega)]

/-- A stack with fewer items. -/
theorem lower (h : Rep cap s l) {m : Nat} (hm : m ≤ s.sz) :
    Rep cap { s with sz := m } (l.take m) := by
  constructor
  · exact h.cap_eq
  · exact h.length_mem
  · exact Nat.le_trans hm h.sz_le
  · show s.mem.take m = l.take m
    rw [← h.items, List.take_take, Nat.min_eq_left hm]

end Rep

theorem pushLoop_eq (s : Stack T) (buf : List T) :
    s.pushLoop buf = { s with mem := Block.write s.mem s.sz buf, sz := s.sz + buf.length } := by
  induction buf generalizing s with
  | nil => rfl
  | cons v buf ih =>
    rw [pushLoop, ih, Block.write, List.length_cons]
    congr 1
    show s.sz + 1 + buf.length = s.sz + (buf.length + 1)
    omega

/-- Items that there is room for come on top, one after another. -/
theorem Rep.pushLoop {cap : Nat} {s : Stack T} {l : List T} (h : Rep cap s l)
    (buf : List T) (hb : s.sz + buf.length ≤ cap) : Rep cap (s.pushLoop buf) (l ++ buf) := by
  rw [pushLoop_eq]
  constructor
  · exact h.cap_eq
  · exact (Block.length_write _ _ _).trans h.length_mem
  · exact hb
  · show (Block.write s.mem s.sz buf).take (s.sz + buf.length) = l ++ buf
    rw [Block.take_write_end _ _ _ (by rw [h.length_mem]; exact hb), h.items]

/-- Going down from offset `nx - 1`, the loop leaves the topmost `nx` items in the first cells of
the array in the order in which they lie in the stack, and the cells behind as they were. -/
theorem popLoop_eq (s : Stack T) (buf : List T) (nx : Nat) (hs : nx ≤ s.sz)
    (hm : s.sz ≤ s.mem.length) (hb : nx ≤ buf.length) :
    s.popLoop buf ((nx : Int) - 1) nx =
      (Block.read s.mem (s.sz - nx) nx ++ buf.drop nx, { s with sz := s.sz - nx }) := by
  induction nx generalizing s buf with
  | zero =>
    rw [popLoop, Block.read_zero, List.drop_zero]
    rfl
  | succ nx ih =>
    have htop : s.sz - 1 < s.mem.length := by omega
    have hp : ((nx + 1 : Nat) : Int) - 1 = nx := by omega
    have hread : Block.read s.mem (s.sz - (nx + 1)) (nx + 1) =
        Block.read s.mem (s.sz - 1 - nx) nx ++ [s.mem[s.sz - 1]] := by
      have hlast : s.sz - 1 - nx + nx = s.sz - 1 := by omega
      rw [(by omega : s.sz - (nx + 1) = s.sz - 1 - nx), Block.read_add, hlast,
        Block.read_succ _ _ _ htop, Block.read_zero]
    have hdrop : (buf.set nx s.mem[s.sz - 1]).drop nx =
        s.mem[s.sz - 1] :: buf.drop (nx + 1) := by
      have hlt : nx < (buf.set nx s.mem[s.sz - 1]).length := by
        rw [List.length_set]
        omega
      rw [List.drop_eq_getElem_cons hlt, List.getElem_set_self,
        List.drop_set_of_lt (Nat.lt_succ_self nx)]
    rw [popLoop, hp, List.getElem?_eq_getElem htop, Int.toNat_natCast]
    dsimp only
    rw [ih { s with sz := s.sz - 1 } (buf.set nx s.mem[s.sz - 1]) (Nat.le_sub_one_of_lt hs)
      (by show s.sz - 1 ≤ s.mem.length; omega) (by rw [List.length_set]; omega), hdrop, hread,
      List.append_assoc, List.singleton_append]
    show (_, ({ s with sz := s.sz - 1 - nx } : Stack T)) = _
    rw [(by omega : s.sz - 1 - nx = s.sz - (nx + 1))]

/-! ### Refinement of a list -/

/-- The operations on a stack. The array that items are popped into has room for the number
asked for. -/
inductive Op (T : Type) where
  | push (v : T)
  | pushBlock (buf : List T)
  | pop
  | popTo
  | popBlock (buf : List T) (n : Nat) (h : n ≤ buf.length)

/-- What an operation returns and stores for its caller. -/
inductive Result (T : Type) where
  | flag (b : Bool)
  | count (n : Nat)
  | value (v : T)
  | item (v : Option T)
  | block (n : Nat) (buf : List T)

/-- An operation of the code. -/
def exec [Zero T] (s : Stack T) : Op T → Result T × Stack T
  | .push v => (.flag (s.push v).1, (s.push v).2)
  | .pushBlock buf => (.count (s.pushBlock buf).1, (s.pushBlock buf).2)
  | .pop => (.value s.pop.1, s.pop.2)
  | .popTo => (.item s.popTo.1, s.popTo.2)
  | .popBlock buf n _ => (.block (s.popBlock buf n).1 (s.popBlock buf n).2.1,
      (s.popBlock buf n).2.2)

/-- The operation on a list of at most `cap` items. -/
def listExec [Zero T] (cap : Nat) (l : List T) : Op T → Result T × List T
  | .push v => if l.length < cap then (.flag true, l ++ [v]) else (.flag false, l)
  | .pushBlock buf =>
    (.count (min buf.length (cap - l.length)), l ++ buf.take (min buf.length (cap - l.length)))
  | .pop => (.value (l.getLast?.getD 0), l.dropLast)
  | .popTo => (.item l.getLast?, l.dropLast)
  | .popBlock buf n _ =>
    (.block (min n l.length) (l.drop (l.length - min n l.length) ++ buf.drop (min n l.length)),
      l.take (l.length - min n l.length))

/-- What the stack shows of the list that it stands for. -/
structure Shows (cap : Nat) (s : Stack T) (l : List T) : Prop where
  capacity_eq : s.capacity = cap
  size_eq : s.size = l.length
  size_le : s.size ≤ s.capacity
  push_full : s.size = s.capacity → ∀ v, s.push v = (false, s)
  pop_empty : s.size = 0 → s.popTo = (none, s)
  /-- As many items as a block push accepted come back as they were. -/
  block_back : ∀ buf arr : List T, (s.pushBlock buf).1 ≤ arr.length →
    let m := (s.pushBlock buf).1
    let r := (s.pushBlock buf).2.popBlock arr m
    r.1 = m ∧ r.2.1 = buf.take m ++ arr.drop m ∧ r.2.2.size = s.size ∧
      r.2.2.mem.take s.size = l

/-- The stack on a block of `cap` cells, given by a constructor, `set` or `resize`. -/
inductive Fresh : Nat → Stack T → Prop where
  | empty : Fresh 0 empty
  | alloc (fresh : List T) : Fresh fresh.length (alloc fresh)
  | fixed (buf : List T) (own : Bool) : Fresh buf.length (fixed buf own)
  | set (s : Stack T) (buf : List T) (own : Bool) : Fresh buf.length (s.set buf own)
  | resize (s : Stack T) (fresh : List T) : Fresh fresh.length (s.resize fresh)

theorem rep_fresh {cap : Nat} {s : Stack T} (h : Fresh cap s) : Rep cap s [] := by
  cases h with
  | empty => exact ⟨rfl, rfl, Nat.le_refl 0, rfl⟩
  | alloc fresh => exact ⟨rfl, rfl, Nat.zero_le _, List.take_zero⟩
  | fixed buf own => exact ⟨rfl, rfl, Nat.zero_le _, List.take_zero⟩
  | set s buf own => exact ⟨rfl, rfl, Nat.zero_le _, List.take_zero⟩
  | resize s fresh => exact ⟨rfl, rfl, Nat.zero_le _, List.take_zero⟩

namespace Rep

variable {cap : Nat} {s : Stack T} {l : List T}

theorem push (h : Rep cap s l) (v : T) :
    (s.push v).1 = decide (l.length < cap) ∧
      Rep cap (s.push v).2 (if l.length < cap then l ++ [v] else l) := by
  have hle := h.sz_le
  have hc := h.cap_eq
  rw [h.length_eq, Stack.push]
  by_cases hf : s.sz = s.cap
  · rw [if_pos hf, if_neg (by omega)]
    exact ⟨(decide_eq_false (by omega)).symm, h⟩
  · rw [if_neg hf, if_pos (by omega)]
    exact ⟨(decide_eq_true (by omega)).symm,
      h.pushLoop [v] (by rw [List.length_singleton]; omega)⟩

theorem pushBlock (h : Rep cap s l) (buf : List T) :
    (s.pushBlock buf).1 = min buf.length (cap - l.length) ∧
      Rep cap (s.pushBlock buf).2 (l ++ buf.take (min buf.length (cap - l.length))) := by
  have hle := h.sz_le
  rw [Stack.pushBlock]
  dsimp only
  rw [h.remaining_eq]
  refine ⟨rfl, h.pushLoop _ ?_⟩
  rw [List.length_take, h.length_eq]
  omega

theorem popTo (h : Rep cap s l) :
    s.popTo.1 = l.getLast? ∧ Rep cap s.popTo.2 l.dropLast := by
  have hl := h.length_eq
  rw [Stack.popTo]
  by_cases h0 : s.sz = 0
  · obtain rfl := List.eq_nil_of_length_eq_zero (hl.trans h0)
    rw [if_pos h0]
    exact ⟨rfl, h⟩
  · rw [if_neg h0]
    refine ⟨h.getElem?_top (Nat.pos_of_ne_zero h0), ?_⟩
    rw [List.dropLast_eq_take, hl]
    exact h.lower (Nat.sub_le _ _)

theorem popBlock (h : Rep cap s l) (buf : List T) (n : Nat) (hb : min n l.length ≤ buf.length) :
    (s.popBlock buf n).1 = min n l.length ∧
      (s.popBlock buf n).2.1 =
        l.drop (l.length - min n l.length) ++ buf.drop (min n l.length) ∧
      Rep cap (s.popBlock buf n).2.2 (l.take (l.length - min n l.length)) := by
  have hl := h.length_eq
  have hmem : s.sz ≤ s.mem.length := by
    rw [h.length_mem]
    exact h.sz_le
  have hm : min n l.length ≤ s.sz := by omega
  have hloop := popLoop_eq s buf (min n l.length) hm hmem hb
  have hread : Block.read s.mem (s.sz - min n l.length) (min n l.length) =
      l.drop (l.length - min n l.length) := by
    rw [h.read_eq (by omega), Block.read, hl]
    apply List.take_of_length_le
    rw [List.length_drop]
    omega
  rw [Stack.popBlock, available, ← hl]
  dsimp only
  rw [hloop, hread]
  refine ⟨rfl, rfl, ?_⟩
  rw [hl]
  exact h.lower (Nat.sub_le _ _)

/-- `pop()` is `pop(p)` with zero for no item. -/
theorem pop [Zero T] (h : Rep cap s l) :
    s.pop.1 = l.getLast?.getD 0 ∧ Rep cap s.pop.2 l.dropLast := by
  have he : s.pop = (s.popTo.1.getD 0, s.popTo.2) := by
    rw [Stack.pop, Stack.popTo]
    by_cases h0 : s.sz = 0
    · rw [if_neg (by omega), if_pos h0]
      rfl
    · rw [if_pos (by omega), if_neg h0, List.getD_eq_getElem?_getD]
  rw [he, h.popTo.1]
  exact ⟨rfl, h.popTo.2⟩

theorem shows (h : Rep cap s l) : Shows cap s l where
  capacity_eq := h.cap_eq
  size_eq := h.length_eq.symm
  size_le := by
    rw [size, capacity, h.cap_eq]
    exact h.sz_le
  push_full hf _ := if_pos hf
  pop_empty h0 := if_pos h0
  block_back buf arr := by
    have hp := h.pushBlock buf
    generalize hm : min buf.length (cap - l.length) = m at hp
    rw [hp.1]
    intro hr
    have hlen : (l ++ buf.take m).length = l.length + m := by
      rw [List.length_append, List.length_take]
      omega
    have hmin : min m (l.length + m) = m := Nat.min_eq_left (Nat.le_add_left m _)
    have hb := hp.2.popBlock arr m (by rw [hlen, hmin]; exact hr)
    rw [hlen, hmin, Nat.add_sub_cancel, List.drop_left, List.take_left] at hb
    rcases hb with ⟨hcount, harr, hrep⟩
    have hsize := hrep.length_eq
    rw [h.length_eq] at hsize
    refine ⟨hcount, harr, hsize.symm, ?_⟩
    rw [size, hsize]
    exact hrep.items

variable [Zero T]

/-- Each operation does to the stack what it does to the list. -/
theorem exec (h : Rep cap s l) (op : Op T) :
    (s.exec op).1 = (listExec cap l op).1 ∧ Rep cap (s.exec op).2 (listExec cap l op).2 := by
  cases op with
  | push v =>
    have hp := h.push v
    simp only [Stack.exec, listExec, hp.1]
    by_cases hlt : l.length < cap
    · rw [if_pos hlt] at hp ⊢
      exact ⟨congrArg Result.flag (decide_eq_true hlt), hp.2⟩
    · rw [if_neg hlt] at hp ⊢
      exact ⟨congrArg Result.flag (decide_eq_false hlt), hp.2⟩
  | pushBlock buf => exact ⟨congrArg Result.count (h.pushBlock buf).1, (h.pushBlock buf).2⟩
  | pop => exact ⟨congrArg Result.value h.pop.1, h.pop.2⟩
  | popTo => exact ⟨congrArg Result.item h.popTo.1, h.popTo.2⟩
  | popBlock buf n hn =>
    have hp := h.popBlock buf n (Nat.le_trans (Nat.min_le_left _ _) hn)
    exact ⟨congrArg₂ Result.block hp.1 hp.2.1, hp.2.2⟩

end Rep

/-- A stack of any capacity answers every sequence of operations as a bounded list does, and
shows that list after each. -/
theorem stack_refinesList [Zero T] {cap : Nat} {s : Stack T} (h : Fresh cap s)
    (ops : List (Op T)) :
    (Mealy.run exec s ops).1 = (Mealy.run (listExec cap) [] ops).1 ∧
      Shows cap (Mealy.run exec s ops).2 (Mealy.run (listExec cap) [] ops).2 := by
  have hrun := Mealy.run_simulates (R := Rep cap) (fun _ _ op hR ↦ hR.exec op) (rep_fresh h) ops
  exact ⟨hrun.1, hrun.2.shows⟩

/-- A block that fills the stack of the unit tests half, got back behind another item. -/
theorem stack_refinesList_eight :
    (Mealy.run exec (alloc (List.replicate 8 (0 : Nat)))
        [.pushBlock [5, 7, 9], .push 1, .pop, .popBlock [0, 0, 0] 3 (by decide)]).1 =
      (Mealy.run (listExec 8) []
        [.pushBlock [5, 7, 9], .push 1, .pop, .popBlock [0, 0, 0] 3 (by decide)]).1 ∧
    Shows 8 (Mealy.run exec (alloc (List.replicate 8 (0 : Nat)))
        [.pushBlock [5, 7, 9], .push 1, .pop, .popBlock [0, 0, 0] 3 (by decide)]).2
      (Mealy.run (listExec 8) []
        [.pushBlock [5, 7, 9], .push 1, .pop, .popBlock [0, 0, 0] 3 (by decide)]).2 :=
  stack_refinesList (.alloc (List.replicate 8 0)) _

end Stack
end CtrlrFx.Data
