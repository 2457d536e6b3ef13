import CtrlrFx.Base.Fifo
import CtrlrFx.Base.Machine
import CtrlrFx.Base.Words
import Mathlib.Data.UInt

/-!
# Circular queues

`CtrlrFx/CircQueue.h`: a ring of which one cell always stays free. The size is computed from
the difference of the two pointers, narrowed to an `int`; a `size_t` has 64 bits.
-/

namespace CtrlrFx.Data
open Base

/-- Members of the queue; `CtrlrFx/CircQueue.h:46–51`. The block from `base_` to `end_` is
`mem`, and the two pointers are offsets into it. -/
structure CircQueue (T : Type) where
  mem : List T
  putPtr : Nat
  getPtr : Nat
  own : Bool
  deriving DecidableEq, Repr

namespace CircQueue

variable {T : Type}

/-- Number of cells; `CtrlrFx/CircQueue.h:115`. -/
def capacity (q : CircQueue T) : Nat := q.mem.length

/-- Releases the memory; `CtrlrFx/CircQueue.h:232–238`. -/
def destroy (_ : CircQueue T) : CircQueue T := { mem := [], putPtr := 0, getPtr := 0, own := false }

/-- Restarts the queue on the block `arr`; `CtrlrFx/CircQueue.h:208–225`. -/
def set (q : CircQueue T) (arr : List T) (own : Bool) : CircQueue T :=
  if arr = [] then q.destroy else { mem := arr, putPtr := 0, getPtr := 0, own := own }

/-- Restarts the queue on newly allocated cells, whose contents are whatever `fresh` holds;
`CtrlrFx/CircQueue.h:197–203`. -/
def resize (q : CircQueue T) (fresh : List T) : CircQueue T :=
  if fresh = [] then q.destroy else q.set fresh true

/-- Position after `p`; `CtrlrFx/CircQueue.h:56–60`. -/
def next (q : CircQueue T) (p : Nat) : Nat := Ring.next q.capacity p

/-- Number of items, as an `int` of 32 bits until it is returned;
`CtrlrFx/CircQueue.h:242–249`. -/
def size (q : CircQueue T) : Nat :=
  let sz := toInt32 ((q.putPtr : Int) - q.getPtr)
  toSize (if sz < 0 then toInt32 (toSize (sz + q.capacity)) else sz)

/-- `CtrlrFx/CircQueue.h:118`. -/
def full (q : CircQueue T) : Bool := q.next q.putPtr == q.getPtr

/-- `CtrlrFx/CircQueue.h:121`. -/
def empty (q : CircQueue T) : Bool := q.putPtr == q.getPtr

/-- Number of open slots, in `size_t` arithmetic; `CtrlrFx/CircQueue.h:129`. -/
def remaining (q : CircQueue T) : Nat := toSize ((q.capacity : Int) - q.size - 1)

/-- Puts one item; `CtrlrFx/CircQueue.h:265–273`. -/
def put (q : CircQueue T) (v : T) : Bool × CircQueue T :=
  if q.full then (false, q)
  else (true, { q with mem := q.mem.set q.putPtr v, putPtr := q.next q.putPtr })

/-- Puts as much of an array as there is room for, in one or two copies;
`CtrlrFx/CircQueue.h:279–299`. -/
def putBlock (q : CircQueue T) (buf : List T) : Nat × CircQueue T :=
  let n := min buf.length q.remaining
  let nwrap := q.capacity - q.putPtr
  if n < nwrap then
    (n, { q with mem := Block.write q.mem q.putPtr (buf.take n), putPtr := q.putPtr + n })
  else
    let nrem := n - nwrap
    let mem := Block.write q.mem q.putPtr (buf.take nwrap)
    (n, { q with mem := Block.write mem 0 ((buf.drop nwrap).take nrem), putPtr := nrem })

/-- Takes one item, or zero from an empty queue; `CtrlrFx/CircQueue.h:305–313`. -/
def get [Zero T] (q : CircQueue T) : T × CircQueue T :=
  if q.empty then (0, q)
  else (q.mem.getD q.getPtr 0, { q with getPtr := q.next q.getPtr })

/-- Takes one item, if there is one; `CtrlrFx/CircQueue.h:320–328`. -/
def getTo (q : CircQueue T) : Option T × CircQueue T :=
  if q.empty then (none, q)
  else (q.mem[q.getPtr]?, { q with getPtr := q.next q.getPtr })

/-- Takes up to `n` items, in one or two copies; `CtrlrFx/CircQueue.h:339–362`. -/
def getBlock (q : CircQueue T) (n : Nat) : Nat × List T × CircQueue T :=
  if q.empty then (0, [], q)
  else
    let n := min n q.size
    let nwrap := q.capacity - q.getPtr
    if n < nwrap then (n, Block.read q.mem q.getPtr n, { q with getPtr := q.getPtr + n })
    else
      let nrem := n - nwrap
      (n, Block.read q.mem q.getPtr nwrap ++ Block.read q.mem 0 nrem, { q with getPtr := nrem })

/-- Single puts of the items of an array until one fails. -/
def putEach (q : CircQueue T) : List T → Nat × CircQueue T
  | [] => (0, q)
  | v :: buf =>
    match q.put v with
    | (false, q') => (0, q')
    | (true, q') => ((q'.putEach buf).1 + 1, (q'.putEach buf).2)

/-- Up to `n` single gets until one fails. -/
def getEach (q : CircQueue T) : Nat → Nat × List T × CircQueue T
  | 0 => (0, [], q)
  | n + 1 =>
    match q.getTo with
    | (none, q') => (0, [], q')
    | (some v, q') => ((q'.getEach n).1 + 1, v :: (q'.getEach n).2.1, (q'.getEach n).2.2)

/-! ### The queue as a list -/

/-- Both pointers lie in the block. -/
structure WF (q : CircQueue T) : Prop where
  put_lt : q.putPtr < q.capacity
  get_lt : q.getPtr < q.capacity

/-- Number of items, exactly. -/
def len (q : CircQueue T) : Nat :=
  if q.getPtr ≤ q.putPtr then q.putPtr - q.getPtr else q.putPtr + q.capacity - q.getPtr

/-- Items in the order in which they were put. -/
def contents (q : CircQueue T) : List T := Ring.contents q.mem q.getPtr q.len

theorem len_lt {q : CircQueue T} (h : q.WF) : q.len < q.capacity := by
  have h1 := h.put_lt
  have h2 := h.get_lt
  unfold len
  split <;> omega

theorem length_contents {q : CircQueue T} (h : q.WF) : q.contents.length = q.len :=
  Ring.length_contents _ (Nat.le_of_lt (len_lt h))

/-- The put pointer is `len` cells ahead of the get pointer. -/
theorem putPtr_eq {q : CircQueue T} (h : q.WF) :
    q.putPtr = (q.getPtr + q.len) % q.mem.length := by
  have h1 : q.putPtr < q.mem.length := h.put_lt
  have h2 : q.getPtr < q.mem.length := h.get_lt
  unfold len
  split
  · rw [Nat.mod_eq_of_lt (by omega)]
    omega
  · have he : q.getPtr + (q.putPtr + q.capacity - q.getPtr) = q.putPtr + q.mem.length := by
      unfold capacity
      omega
    rw [he, Nat.add_mod_right, Nat.mod_eq_of_lt h1]

theorem wf_set (q : CircQueue T) {arr : List T} (own : Bool) (h : arr ≠ []) :
    (q.set arr own).WF := by
  have hl := List.length_pos_of_ne_nil h
  rw [set, if_neg h]
  exact ⟨hl, hl⟩

theorem empty_iff {q : CircQueue T} (h : q.WF) : q.empty = true ↔ q.len = 0 := by
  have h1 := h.put_lt
  have h2 := h.get_lt
  rw [empty, beq_iff_eq]
  unfold len
  split <;> omega

theorem full_iff {q : CircQueue T} (h : q.WF) : q.full = true ↔ q.len + 1 = q.capacity := by
  have h1 := h.put_lt
  have h2 := h.get_lt
  rw [full, beq_iff_eq]
  unfold len next Ring.next
  split <;> split <;> omega

/-- As long as the capacity is an `int` and one more, the size is exact. -/
theorem size_eq {q : CircQueue T} (h : q.WF) (hc : q.capacity ≤ 2 ^ 31) : q.size = q.len := by
  have h1 := h.put_lt
  have h2 := h.get_lt
  have hd : toInt32 ((q.putPtr : Int) - q.getPtr) = (q.putPtr : Int) - q.getPtr :=
    toInt32_of_lt _ (by omega) (by omega)
  unfold size len
  dsimp only
  rw [hd]
  by_cases hle : q.getPtr ≤ q.putPtr
  · have hs := toSize_of_lt ((q.putPtr : Int) - q.getPtr) (by omega) (by omega)
    rw [if_neg (by omega), if_pos hle]
    omega
  · have hs := toSize_of_lt ((q.putPtr : Int) - q.getPtr + q.capacity) (by omega) (by omega)
    have ht := toInt32_of_lt ((q.putPtr : Int) - q.getPtr + q.capacity) (by omega) (by omega)
    rw [if_pos (by omega), if_neg hle, hs, ht]
    omega

theorem remaining_eq {q : CircQueue T} (h : q.WF) (hc : q.capacity ≤ 2 ^ 31) :
    q.remaining = q.capacity - 1 - q.len := by
  have hl := len_lt h
  have hs := toSize_of_lt ((q.capacity : Int) - q.len - 1) (by omega) (by omega)
  rw [remaining, size_eq h hc]
  omega

/-! ### Single operations -/

/-- A queue with the same block and the put pointer one further. -/
theorem put_of_room {q : CircQueue T} (h : q.WF) (v : T) (hr : q.len + 1 < q.capacity) :
    ∃ q', q.put v = (true, q') ∧ q'.WF ∧ q'.capacity = q.capacity ∧ q'.len = q.len + 1 ∧
      q'.contents = q.contents ++ [v] ∧
      q' = { q with mem := q.mem.set q.putPtr v, putPtr := q.next q.putPtr } := by
  have hf : ¬q.full = true := fun hf ↦ by
    have := (full_iff h).mp hf
    omega
  have h1 := h.put_lt
  have h2 := h.get_lt
  have hcap : (q.mem.set q.putPtr v).length = q.capacity := List.length_set
  have hn : (if q.getPtr ≤ q.next q.putPtr then q.next q.putPtr - q.getPtr
      else q.next q.putPtr + q.capacity - q.getPtr) = q.len + 1 := by
    unfold len at hr ⊢
    unfold next Ring.next
    split at hr <;> split <;> split <;> omega
  have hl : ({ q with mem := q.mem.set q.putPtr v, putPtr := q.next q.putPtr } :
      CircQueue T).len = q.len + 1 := by
    unfold len capacity
    dsimp only
    rw [hcap]
    exact hn
  refine ⟨{ q with mem := q.mem.set q.putPtr v, putPtr := q.next q.putPtr }, if_neg hf, ⟨?_, ?_⟩,
    hcap, hl, ?_, rfl⟩
  · change q.next q.putPtr < (q.mem.set q.putPtr v).length
    rw [hcap]
    exact Ring.next_lt h1
  · change q.getPtr < (q.mem.set q.putPtr v).length
    rwa [hcap]
  · rw [contents, hl]
    change Ring.contents (q.mem.set q.putPtr v) q.getPtr (q.len + 1) = _
    rw [putPtr_eq h]
    exact Ring.contents_push v (by unfold capacity at hr; omega)

theorem put_of_full {q : CircQueue T} (h : q.WF) (v : T) (hr : q.len + 1 = q.capacity) :
    q.put v = (false, q) := if_pos ((full_iff h).mpr hr)

theorem getTo_of_empty {q : CircQueue T} (h : q.WF) (hn : q.len = 0) : q.getTo = (none, q) :=
  if_pos ((empty_iff h).mpr hn)

/-- A get takes the oldest item. -/
theorem getTo_of_pos {q : CircQueue T} (h : q.WF) (hn : 0 < q.len) :
    ∃ v q', q.getTo = (some v, q') ∧ q'.WF ∧ q'.capacity = q.capacity ∧ q'.len = q.len - 1 ∧
      q.contents = v :: q'.contents ∧ q.mem[q.getPtr]? = some v ∧
      q' = { q with getPtr := q.next q.getPtr } := by
  have he : ¬q.empty = true := fun he ↦ by
    have := (empty_iff h).mp he
    omega
  have h1 := h.put_lt
  have h2 : q.getPtr < q.mem.length := h.get_lt
  have hl : ({ q with getPtr := q.next q.getPtr } : CircQueue T).len = q.len - 1 := by
    unfold len at hn ⊢
    unfold next Ring.next capacity at *
    split at hn <;> dsimp only <;> split <;> split <;> omega
  have hg : q.mem[q.getPtr]? = some q.mem[q.getPtr] := List.getElem?_eq_getElem h2
  refine ⟨q.mem[q.getPtr], { q with getPtr := q.next q.getPtr }, ?_,
    ⟨h1, Ring.next_lt h.get_lt⟩, rfl, hl, ?_, hg, rfl⟩
  · rw [getTo, if_neg he, hg]
  · rw [contents, contents, hl]
    exact Ring.contents_pop h2 hn (Nat.le_of_lt (len_lt h))

/-! ### Runs of single operations and block operations -/

/-- Single puts append as much as there is room for, going around the ring. -/
theorem putEach_spec {q : CircQueue T} (h : q.WF) (buf : List T) :
    ∃ q', q.putEach buf = (min buf.length (q.capacity - 1 - q.len), q') ∧ q'.WF ∧
      q'.capacity = q.capacity ∧ q'.contents = q.contents ++ buf.take (q.capacity - 1 - q.len) ∧
      q' = { q with
        mem := (Ring.store q.mem q.putPtr (buf.take (q.capacity - 1 - q.len))).1
        putPtr := (Ring.store q.mem q.putPtr (buf.take (q.capacity - 1 - q.len))).2 } := by
  induction buf generalizing q with
  | nil => exact ⟨q, by simp [putEach], h, rfl, by simp, by simp [Ring.store]⟩
  | cons v buf ih =>
    have hl := len_lt h
    by_cases hr : q.len + 1 = q.capacity
    · have hz : q.capacity - 1 - q.len = 0 := by omega
      exact ⟨q, by simp [putEach, put_of_full h v hr, hz], h, rfl, by simp [hz],
        by simp [hz, Ring.store]⟩
    · obtain ⟨q₁, hp, hw, hcap, hlen, hc, he⟩ := put_of_room h v (by omega)
      obtain ⟨q', hp', hw', hcap', hc', he'⟩ := ih hw
      have hm : q.capacity - 1 - q.len = q₁.capacity - 1 - q₁.len + 1 := by omega
      refine ⟨q', ?_, hw', hcap'.trans hcap, ?_, ?_⟩
      · simp only [putEach, hp, hp', hm, List.length_cons]
        congr 1
        omega
      · rw [hc', hc, hm, List.take_succ_cons, List.append_assoc, List.singleton_append]
      · rw [hm, List.take_succ_cons, Ring.store]
        generalize q₁.capacity - 1 - q₁.len = m at he'
        subst he
        exact he'

/-- Single gets take what there is, oldest first, going around the ring. -/
theorem getEach_spec {q : CircQueue T} (h : q.WF) (n : Nat) :
    ∃ q', q.getEach n = (min n q.len, q.contents.take n, q') ∧ q'.WF ∧
      q'.capacity = q.capacity ∧ q'.contents = q.contents.drop n ∧
      q.contents.take n = (Ring.fetch q.mem q.getPtr (min n q.len)).1 ∧
      q' = { q with getPtr := (Ring.fetch q.mem q.getPtr (min n q.len)).2 } := by
  induction n generalizing q with
  | zero =>
    exact ⟨q, by simp [getEach], h, rfl, by simp, by simp [Ring.fetch], by simp [Ring.fetch]⟩
  | succ n ih =>
    by_cases hn : q.len = 0
    · have hc : q.contents = [] :=
        List.eq_nil_of_length_eq_zero (by rw [length_contents h, hn])
      exact ⟨q, by simp [getEach, getTo_of_empty h hn, hn, hc], h, rfl, by simp [hc],
        by simp [hn, hc, Ring.fetch], by simp [hn, Ring.fetch]⟩
    · obtain ⟨v, q₁, hg, hw, hcap, hlen, hc, hv, he⟩ := getTo_of_pos h (Nat.pos_of_ne_zero hn)
      obtain ⟨q', hg', hw', hcap', hc', ht, he'⟩ := ih hw
      have hm : min (n + 1) q.len = min n q₁.len + 1 := by omega
      refine ⟨q', ?_, hw', hcap'.trans hcap, ?_, ?_, ?_⟩
      · simp only [getEach, hg, hg', hm, hc, List.take_succ_cons]
      · rw [hc', hc, List.drop_succ_cons]
      · rw [hc, List.take_succ_cons, hm, Ring.fetch, hv, ht]
        subst he
        rfl
      · rw [hm, Ring.fetch]
        generalize min n q₁.len = m at he'
        subst he
        exact he'

/-- The two copies of a block put are the single puts. -/
theorem putBlock_eq_putEach {q : CircQueue T} (h : q.WF) (hc : q.capacity ≤ 2 ^ 31)
    (buf : List T) : q.putBlock buf = q.putEach buf := by
  obtain ⟨q', hp, -, -, -, rfl⟩ := putEach_spec h buf
  have hl := len_lt h
  have h1 : q.putPtr < q.mem.length := h.put_lt
  have hcap : q.capacity = q.mem.length := rfl
  rw [hp]
  unfold putBlock
  simp only [remaining_eq h hc]
  have htl : (buf.take (q.capacity - 1 - q.len)).length =
      min buf.length (q.capacity - 1 - q.len) := by
    rw [List.length_take, Nat.min_comm]
  have htake : buf.take (min buf.length (q.capacity - 1 - q.len)) =
      buf.take (q.capacity - 1 - q.len) := by
    rw [Nat.min_comm, ← List.take_take, List.take_length]
  split
  · next hn =>
    rw [htake, Ring.store_of_lt (by omega), htl]
  · next hn =>
    -- the block goes around the end: one copy up to it, one from the start
    have hsplit : buf.take (q.capacity - 1 - q.len) = buf.take (q.capacity - q.putPtr) ++
        (buf.drop (q.capacity - q.putPtr)).take
          (min buf.length (q.capacity - 1 - q.len) - (q.capacity - q.putPtr)) := by
      rw [← htake, ← List.take_add]
      congr 1
      omega
    have hl1 : (buf.take (q.capacity - q.putPtr)).length = q.capacity - q.putPtr := by
      rw [List.length_take]
      omega
    have hl2 : ((buf.drop (q.capacity - q.putPtr)).take
        (min buf.length (q.capacity - 1 - q.len) - (q.capacity - q.putPtr))).length =
          min buf.length (q.capacity - 1 - q.len) - (q.capacity - q.putPtr) := by
      rw [List.length_take, List.length_drop]
      omega
    rw [hsplit, Ring.store_append, Ring.store_of_eq h1 (by omega)]
    dsimp only
    rw [Ring.store_of_lt (by rw [Block.length_write]; omega), hl2, Nat.zero_add]

/-- The two copies of a block get are the single gets. -/
theorem getBlock_eq_getEach {q : CircQueue T} (h : q.WF) (hc : q.capacity ≤ 2 ^ 31) (n : Nat) :
    q.getBlock n = q.getEach n := by
  obtain ⟨q', hg, -, -, -, ht, rfl⟩ := getEach_spec h n
  have hl := len_lt h
  have h2 : q.getPtr < q.mem.length := h.get_lt
  have hcap : q.capacity = q.mem.length := rfl
  rw [hg, ht]
  unfold getBlock
  split
  · next he =>
    rw [(empty_iff h).mp he, Nat.min_zero]
    rfl
  · dsimp only
    rw [size_eq h hc]
    split
    · next hn => rw [Ring.fetch_of_lt (by omega)]
    · next hn =>
      have hs : min n q.len = q.capacity - q.getPtr + (min n q.len - (q.capacity - q.getPtr)) := by
        omega
      rw [hs, Ring.fetch_add, Ring.fetch_of_eq h2 (by omega), Nat.add_sub_cancel_left]
      dsimp only
      rw [Ring.fetch_of_lt (by omega), Nat.zero_add]

/-! ### Refinement of a list -/

/-- The operations on a queue. -/
inductive Op (T : Type) where
  | put (v : T)
  | putBlock (buf : List T)
  | get
  | getTo
  | getBlock (n : Nat)

/-- What an operation returns and stores for its caller. -/
inductive Result (T : Type) where
  | flag (b : Bool)
  | count (n : Nat)
  | value (v : T)
  | item (v : Option T)
  | block (n : Nat) (vs : List T)

/-- An operation of the code. -/
def exec [Zero T] (q : CircQueue T) : Op T → Result T × CircQueue T
  | .put v => (.flag (q.put v).1, (q.put v).2)
  | .putBlock buf => (.count (q.putBlock buf).1, (q.putBlock buf).2)
  | .get => (.value q.get.1, q.get.2)
  | .getTo => (.item q.getTo.1, q.getTo.2)
  | .getBlock n => (.block (q.getBlock n).1 (q.getBlock n).2.1, (q.getBlock n).2.2)

/-- The operation on a list of at most `cap - 1` items. -/
def listExec [Zero T] (cap : Nat) (l : List T) : Op T → Result T × List T
  | .put v => if l.length < cap - 1 then (.flag true, l ++ [v]) else (.flag false, l)
  | .putBlock buf =>
    (.count (min buf.length (cap - 1 - l.length)), l ++ buf.take (cap - 1 - l.length))
  | .get => (.value (l.headD 0), l.tail)
  | .getTo => (.item l.head?, l.tail)
  | .getBlock n => (.block (min n l.length) (l.take n), l.drop n)

/-- What the queue shows of the list `l` it stands for. -/
structure Shows (cap : Nat) (q : CircQueue T) (l : List T) : Prop where
  capacity_eq : q.capacity = cap
  size_eq : q.size = l.length
  size_add_remaining : q.size + q.remaining = cap - 1
  put_room : 0 < q.remaining → ∀ v, (q.put v).1 = true
  put_full : q.remaining = 0 → ∀ v, q.put v = (false, q)
  putBlock_eq : ∀ buf, q.putBlock buf = q.putEach buf
  getBlock_eq : ∀ n, q.getBlock n = q.getEach n

/-- The queue on a block of `cap` cells, given by a constructor, `set` or `resize`. -/
def Fresh (cap : Nat) (q : CircQueue T) : Prop :=
  ∃ (q₀ : CircQueue T) (arr : List T), arr.length = cap ∧
    ((∃ own, q = q₀.set arr own) ∨ q = q₀.resize arr)

/-- Every sequence of operations on a queue of this capacity has the results it has on a
list, and leaves the queue showing that list. -/
def RefinesList (T : Type) [Zero T] (cap : Nat) : Prop :=
  ∀ q : CircQueue T, Fresh cap q → ∀ ops : List (Op T),
    (Mealy.run exec q ops).1 = (Mealy.run (listExec cap) [] ops).1 ∧
      Shows cap (Mealy.run exec q ops).2 (Mealy.run (listExec cap) [] ops).2

/-- The queue stands for the list. -/
structure Rep (cap : Nat) (q : CircQueue T) (l : List T) : Prop where
  wf : q.WF
  capacity_eq : q.capacity = cap
  contents_eq : q.contents = l

theorem Rep.length_eq {cap : Nat} {q : CircQueue T} {l : List T} (h : Rep cap q l) :
    l.length = q.len := by
  rw [← h.contents_eq, length_contents h.wf]

theorem Rep.shows {cap : Nat} {q : CircQueue T} {l : List T} (h : Rep cap q l)
    (hc : cap ≤ 2 ^ 31) : Shows cap q l := by
  have hcap := h.capacity_eq
  have hl := len_lt h.wf
  have hs := size_eq h.wf (by omega)
  have hr := remaining_eq h.wf (by omega)
  refine ⟨hcap, by rw [hs, h.length_eq], by omega, fun hp v ↦ ?_, fun hz v ↦ ?_,
    fun buf ↦ putBlock_eq_putEach h.wf (by omega) buf,
    fun n ↦ getBlock_eq_getEach h.wf (by omega) n⟩
  · obtain ⟨q', he, -⟩ := put_of_room h.wf v (by omega)
    rw [he]
  · exact put_of_full h.wf v (by omega)

theorem rep_fresh {cap : Nat} {q : CircQueue T} (h1 : 1 ≤ cap) (h : Fresh cap q) :
    Rep cap q [] := by
  have hset : ∀ (q₀ : CircQueue T) (arr : List T) (own : Bool), arr.length = cap →
      Rep cap (q₀.set arr own) [] := by
    intro q₀ arr own hl
    have hne : arr ≠ [] := by
      rintro rfl
      rw [List.length_nil] at hl
      omega
    refine ⟨wf_set q₀ own hne, ?_, ?_⟩
    · rw [set, if_neg hne]
      exact hl
    · rw [set, if_neg hne]
      rfl
  obtain ⟨q₀, arr, hl, ⟨own, rfl⟩ | rfl⟩ := h
  · exact hset q₀ arr own hl
  · have hne : arr ≠ [] := by
      rintro rfl
      rw [List.length_nil] at hl
      omega
    rw [resize, if_neg hne]
    exact hset q₀ arr true hl

variable [Zero T]

/-- `get()` is `get(p)` with zero for no item. -/
theorem get_eq_getTo (q : CircQueue T) : q.get = (q.getTo.1.getD 0, q.getTo.2) := by
  unfold get getTo
  split
  · rfl
  · rw [List.getD_eq_getElem?_getD]

/-- Each operation does to the queue what it does to the list. -/
theorem Rep.exec {cap : Nat} {q : CircQueue T} {l : List T} (hc : cap ≤ 2 ^ 31)
    (h : Rep cap q l) (op : Op T) :
    (q.exec op).1 = (listExec cap l op).1 ∧ Rep cap (q.exec op).2 (listExec cap l op).2 := by
  have hl := h.length_eq
  have hcap := h.capacity_eq
  have hlt := len_lt h.wf
  have htake : q.getTo.1 = l.head? ∧ Rep cap q.getTo.2 l.tail := by
    by_cases hn : q.len = 0
    · obtain rfl := List.eq_nil_of_length_eq_zero (hl.trans hn)
      rw [getTo_of_empty h.wf hn]
      exact ⟨rfl, h⟩
    · obtain ⟨v, q', hg, hw, hcap', -, hv, -⟩ := getTo_of_pos h.wf (Nat.pos_of_ne_zero hn)
      rw [h.contents_eq] at hv
      subst hv
      rw [hg]
      exact ⟨rfl, hw, hcap'.trans hcap, rfl⟩
  cases op with
  | put v =>
    simp only [CircQueue.exec, listExec]
    by_cases hr : q.len + 1 = q.capacity
    · rw [put_of_full h.wf v hr, if_neg (by omega)]
      exact ⟨rfl, h⟩
    · obtain ⟨q', hp, hw, hcap', -, hcs, -⟩ := put_of_room h.wf v (by omega)
      rw [hp, if_pos (by omega)]
      exact ⟨rfl, hw, hcap'.trans hcap, by rw [hcs, h.contents_eq]⟩
  | putBlock buf =>
    simp only [CircQueue.exec, listExec]
    obtain ⟨q', hp, hw, hcap', hcs, -⟩ := putEach_spec h.wf buf
    rw [putBlock_eq_putEach h.wf (by omega), hp, hl, ← hcap]
    exact ⟨rfl, hw, hcap', by rw [hcs, h.contents_eq]⟩
  | get =>
    simp only [CircQueue.exec, listExec]
    rw [get_eq_getTo, htake.1]
    exact ⟨by cases l <;> rfl, htake.2⟩
  | getTo =>
    simp only [CircQueue.exec, listExec]
    rw [htake.1]
    exact ⟨rfl, htake.2⟩
  | getBlock n =>
    simp only [CircQueue.exec, listExec]
    obtain ⟨q', hg, hw, hcap', hcs, -⟩ := getEach_spec h.wf n
    rw [getBlock_eq_getEach h.wf (by omega), hg, hl, h.contents_eq]
    exact ⟨rfl, hw, hcap'.trans hcap, by rw [hcs, h.contents_eq]⟩

/-! ### Queues too long for an `int` -/

/-- Single puts on a list that has room for them. -/
theorem run_put_list {cap : Nat} (l : List T) (v : T) (k : Nat)
    (hk : l.length + k ≤ cap - 1) :
    (Mealy.run (listExec cap) l (List.replicate k (.put v))).2 = l ++ List.replicate k v := by
  induction k generalizing l with
  | zero => simp [Mealy.run]
  | succ k ih =>
    have hx : (listExec cap l (.put v)).2 = l ++ [v] := by
      simp only [listExec, if_pos (show l.length < cap - 1 by omega)]
    rw [List.replicate_succ, Mealy.run, hx,
      ih _ (by rw [List.length_append, List.length_singleton]; omega), List.append_assoc]
    rfl

omit [Zero T] in
/-- No size is ever `2 ^ 31`. -/
theorem size_ne (q : CircQueue T) : q.size ≠ 2 ^ 31 := by
  have hb : ∀ z : Int, toSize (toInt32 z) ≠ 2 ^ 31 := by
    intro z
    unfold toSize toInt32
    split <;> omega
  unfold size
  dsimp only
  split
  · exact hb _
  · exact hb _

theorem not_refinesList {cap : Nat} (h : 2 ^ 31 < cap) : ¬RefinesList T cap := by
  intro hr
  have hf : Fresh cap ((⟨[], 0, 0, false⟩ : CircQueue T).set (List.replicate cap 0) true) :=
    ⟨_, _, List.length_replicate, .inl ⟨true, rfl⟩⟩
  have hs := (hr _ hf (List.replicate (2 ^ 31) (.put 0))).2.size_eq
  rw [run_put_list [] 0 (2 ^ 31) (by rw [List.length_nil]; omega), List.nil_append,
    List.length_replicate] at hs
  exact size_ne _ hs

/-- A queue behaves as a list just when its capacity is at most `2 ^ 31`. -/
theorem circQueue_refinesList_iff {cap : Nat} (h : 1 ≤ cap) :
    RefinesList T cap ↔ cap ≤ 2 ^ 31 := by
  refine ⟨fun hr ↦ Nat.le_of_not_lt fun hlt ↦ not_refinesList hlt hr, fun hc q hq ops ↦ ?_⟩
  obtain ⟨hres, hrep⟩ := Mealy.run_simulates (R := Rep cap)
    (fun _ _ op hR ↦ hR.exec hc op) (rep_fresh h hq) ops
  exact ⟨hres, hrep.shows hc⟩

/-- The queue of the unit tests; `UnitTests/data/CircQueueTest/CircQueueTest.cpp:30`. -/
theorem circQueue_refinesList_iff_four : RefinesList Nat 4 ↔ 4 ≤ 2 ^ 31 :=
  circQueue_refinesList_iff (by decide)

/-- A queue of bytes that overflows the `int`. -/
theorem circQueue_not_refinesList : ¬RefinesList UInt8 (2 ^ 31 + 1) :=
  not_refinesList (by decide)

end CircQueue
end CtrlrFx.Data
