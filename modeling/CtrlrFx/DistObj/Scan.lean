import CtrlrFx.Base.Machine
import CtrlrFx.DistObj.Registration

/-!
# Scans of the registry

The loops of `register_obj` and `get_obj` in `src/DistObj/DistObj.cpp`, over memory: the table is
the first `max` entries and whatever lies behind it follows. Each scan records the indices at which
it evaluates `obj_map_`. It tests the entry before the bound.
-/

namespace CtrlrFx.DistObj
open Base

/-- Memory from `obj_map_` on. -/
abbrev RawRegistry (ο : Type) := Nat → ObjMap ο

namespace RawRegistry

variable {ο : Type}

/-- The constructor; `src/DistObj/DistObj.cpp:14–17`. -/
def create (mem : RawRegistry ο) : RawRegistry ο :=
  Function.update mem 0 { mem 0 with obj := none }

/-- The loop of `register_obj` from `i` on, with the indices it evaluates;
`src/DistObj/DistObj.cpp:25–26`. -/
def registerScan (max : Nat) (mem : RawRegistry ο) : Nat → Nat → Nat × List Nat
  | 0, i => (i, [])
  | fuel + 1, i =>
    if (mem i).obj.isSome ∧ i < max then
      let r := registerScan max mem fuel (i + 1)
      (r.1, i :: r.2)
    else (i, [i])

/-- The loop of `get_obj` from `i` on, with the indices it evaluates;
`src/DistObj/DistObj.cpp:47–51`. -/
def getScan (max : Nat) (mem : RawRegistry ο) (key : UInt32) : Nat → Nat → Option ο × List Nat
  | 0, _ => (none, [])
  | fuel + 1, i =>
    if (mem i).obj.isSome ∧ i < max then
      if (mem i).key = key then ((mem i).obj, [i, i, i])
      else
        let r := getScan max mem key fuel (i + 1)
        (r.1, i :: i :: r.2)
    else (none, [i])

/-- What `register_obj` does where its loop stops; `src/DistObj/DistObj.cpp:28–38`. -/
def enter (max : Nat) (mem : RawRegistry ο) (i : Nat) (key : UInt32) (obj : Option ο) :
    Int × RawRegistry ο :=
  if i = max then (-2, mem)
  else
    let mem := Function.update mem i { key, obj }
    if i < max - 1 then
      (i + 1, Function.update mem (i + 1) { mem (i + 1) with obj := none })
    else (i, mem)

/-- Enters an object, with the indices its scan evaluates; `src/DistObj/DistObj.cpp:21–39`. -/
def registerObj (max : Nat) (mem : RawRegistry ο) (key : UInt32) (obj : Option ο) :
    (Int × RawRegistry ο) × List Nat :=
  let (i, trace) := registerScan max mem (max + 1) 0
  (enter max mem i key obj, trace)

/-- The object of a key, with the indices its scan evaluates; `src/DistObj/DistObj.cpp:43–66`. -/
def getObj (max : Nat) (mem : RawRegistry ο) (key : UInt32) : Option ο × List Nat :=
  getScan max mem key (max + 1) 0

/-! ### The table as a list -/

/-- The `n` entries from `i` on. -/
def entries (mem : RawRegistry ο) (i n : Nat) : List (ObjMap ο) := (List.range' i n).map mem

@[simp] theorem length_entries (mem : RawRegistry ο) (i n : Nat) :
    (mem.entries i n).length = n := by
  simp [entries]

theorem entries_succ (mem : RawRegistry ο) (i n : Nat) :
    mem.entries i (n + 1) = mem i :: mem.entries (i + 1) n := rfl

/-- The registry the table stands for. -/
def registry (max : Nat) (mem : RawRegistry ο) : DistObjRegistry ο :=
  { objMap := mem.entries 0 max }

theorem used_le (ms : List (ObjMap ο)) : DistObjRegistry.used ms ≤ ms.length := by
  induction ms with
  | nil => exact Nat.le_refl 0
  | cons m ms ih => cases h : m.obj <;> simp [DistObjRegistry.used, h, ih]

/-- A scan to register stops at the first empty entry, or at the bound, and evaluates every entry
from where it starts to where it stops. -/
theorem registerScan_eq (max : Nat) (mem : RawRegistry ο) {n i : Nat} (hn : i + n = max) :
    registerScan max mem (n + 1) i =
      (i + DistObjRegistry.used (mem.entries i n),
        List.range' i (DistObjRegistry.used (mem.entries i n) + 1)) := by
  induction n generalizing i with
  | zero =>
    have hb : ¬i < max := by omega
    simp [registerScan, hb, entries, DistObjRegistry.used]
  | succ n ih =>
    have hb : i < max := by omega
    have hi := ih (i := i + 1) (by omega)
    cases h : (mem i).obj with
    | none => simp [registerScan, entries_succ, DistObjRegistry.used, h]
    | some o =>
      rw [registerScan, if_pos ⟨by rw [h]; rfl, hb⟩, hi]
      simp [entries_succ, DistObjRegistry.used, h, List.range'_succ]
      omega

/-- A lookup finds what the list of entries has under the key. -/
theorem getScan_fst (max : Nat) (mem : RawRegistry ο) (key : UInt32) {n i : Nat}
    (hn : i + n = max) :
    (getScan max mem key (n + 1) i).1 = DistObjRegistry.lookup key (mem.entries i n) := by
  induction n generalizing i with
  | zero =>
    have hb : ¬i < max := by omega
    simp [getScan, hb, entries, DistObjRegistry.lookup]
  | succ n ih =>
    have hb : i < max := by omega
    have hi := ih (i := i + 1) (by omega)
    rw [getScan, entries_succ, DistObjRegistry.lookup]
    cases h : (mem i).obj with
    | none => simp
    | some o => by_cases hk : (mem i).key = key <;> simp [hb, hk, hi]

/-- A scan for a key stays inside unless it passes every entry without a match. -/
theorem getScan_inside (max : Nat) (mem : RawRegistry ο) (key : UInt32) {n i : Nat}
    (hn : i + n = max) :
    (∀ j ∈ (getScan max mem key (n + 1) i).2, j < max) ↔
      ∃ m ∈ mem.entries i n, m.obj = none ∨ m.key = key := by
  induction n generalizing i with
  | zero =>
    have hb : ¬i < max := by omega
    simp [getScan, hb, entries]
  | succ n ih =>
    have hb : i < max := by omega
    have hi := ih (i := i + 1) (by omega)
    rw [getScan, entries_succ]
    cases h : (mem i).obj with
    | none => simp [h, hb]
    | some o => by_cases hk : (mem i).key = key <;> simp [h, hb, hk, hi]

/-- Over memory the operations do to the table what the registry's do to its list. -/
theorem getObj_refines (max : Nat) (mem : RawRegistry ο) (key : UInt32) :
    (mem.getObj max key).1 = (mem.registry max).getObj key :=
  mem.getScan_fst max key (Nat.zero_add max)

theorem entries_update (mem : RawRegistry ο) (m : ObjMap ο) (k n : Nat) :
    entries (Function.update mem k m) 0 n = (mem.entries 0 n).set k m := by
  apply List.ext_getElem
  · simp
  · intro j hj _
    by_cases h : k = j
    · subst h
      simp [entries]
    · simp [entries, Function.update_of_ne (Ne.symm h), h]

theorem entries_modify (mem : RawRegistry ο) (f : ObjMap ο → ObjMap ο) (k n : Nat) :
    entries (Function.update mem k (f (mem k))) 0 n = (mem.entries 0 n).modify k f := by
  apply List.ext_getElem
  · simp
  · intro j hj _
    by_cases h : k = j
    · subst h
      simp [entries]
    · simp [entries, Function.update_of_ne (Ne.symm h), h]

/-- The scan of a registration stops at the first empty entry, or behind a full table. -/
theorem registerObj_eq (max : Nat) (mem : RawRegistry ο) (key : UInt32) (obj : Option ο) :
    mem.registerObj max key obj =
      (mem.enter max (DistObjRegistry.used (mem.entries 0 max)) key obj,
        List.range' 0 (DistObjRegistry.used (mem.entries 0 max) + 1)) := by
  rw [registerObj, registerScan_eq max mem (Nat.zero_add max)]
  simp only [Nat.zero_add]

theorem registerObj_refines (max : Nat) (mem : RawRegistry ο) (key : UInt32) (obj : Option ο) :
    (mem.registerObj max key obj).1.1 = ((mem.registry max).registerObj key obj).1 ∧
      registry max (mem.registerObj max key obj).1.2 =
        ((mem.registry max).registerObj key obj).2 := by
  rw [registerObj_eq, enter, DistObjRegistry.registerObj]
  simp only [registry, length_entries]
  by_cases hf : DistObjRegistry.used (mem.entries 0 max) = max
  · simp [hf]
  · by_cases hl : DistObjRegistry.used (mem.entries 0 max) + 1 < max
    · have hl' : DistObjRegistry.used (mem.entries 0 max) < max - 1 := by omega
      simp only [if_neg hf, if_pos hl, if_pos hl']
      rw [entries_modify _ fun m ↦ { m with obj := none }, entries_update]
      exact ⟨trivial, rfl⟩
    · have hl' : ¬DistObjRegistry.used (mem.entries 0 max) < max - 1 := by omega
      simp only [if_neg hf, if_neg hl, if_neg hl']
      rw [entries_update]
      exact ⟨trivial, rfl⟩

/-- Nothing behind the table is written. -/
theorem registerObj_behind (max : Nat) (mem : RawRegistry ο) (key : UInt32) (obj : Option ο)
    {j : Nat} (hj : max ≤ j) : (mem.registerObj max key obj).1.2 j = mem j := by
  have hle := used_le (mem.entries 0 max)
  rw [length_entries] at hle
  rw [registerObj_eq]
  simp only [enter]
  split_ifs with hf hl
  · rfl
  · show Function.update (Function.update mem _ _) _ _ j = mem j
    rw [Function.update_of_ne (by omega), Function.update_of_ne (by omega)]
  · show Function.update mem _ _ j = mem j
    rw [Function.update_of_ne (by omega)]

/-! ### Where the scans look -/

/-- No entry of the table is empty. -/
def Full (max : Nat) (mem : RawRegistry ο) : Prop := ∀ i < max, (mem i).obj.isSome

theorem exists_entries (mem : RawRegistry ο) (max : Nat) (P : ObjMap ο → Prop) :
    (∃ m ∈ mem.entries 0 max, P m) ↔ ∃ i < max, P (mem i) := by
  simp [entries]

/-- A table has room exactly if one of its entries is empty. -/
theorem used_lt_iff (ms : List (ObjMap ο)) :
    DistObjRegistry.used ms < ms.length ↔ ∃ m ∈ ms, m.obj = none := by
  induction ms with
  | nil => simp [DistObjRegistry.used]
  | cons m ms ih => cases h : m.obj <;> simp [DistObjRegistry.used, h, ih]

/-- A call of the registry. -/
inductive Call (ο : Type) where
  | registerObj (key : UInt32) (obj : Option ο)
  | getObj (key : UInt32)

/-- The indices at which the loop of a call evaluates `obj_map_`. -/
def evaluated (max : Nat) (mem : RawRegistry ο) : Call ο → List Nat
  | .registerObj key obj => (mem.registerObj max key obj).2
  | .getObj key => (mem.getObj max key).2

/-- Every evaluation is of an entry of the table. -/
def Inside (max : Nat) (mem : RawRegistry ο) (call : Call ο) : Prop :=
  ∀ i ∈ mem.evaluated max call, i < max

/-- The table has room, or the call looks for a key that is in it. -/
def Ends (max : Nat) (mem : RawRegistry ο) : Call ο → Prop
  | .registerObj _ _ => ¬mem.Full max
  | .getObj key => mem.Full max → ∃ i < max, (mem i).key = key

theorem not_full_iff (max : Nat) (mem : RawRegistry ο) :
    ¬mem.Full max ↔ ∃ i < max, (mem i).obj = none := by
  simp [Full]

theorem inside_iff_ends (max : Nat) (mem : RawRegistry ο) (call : Call ο) :
    mem.Inside max call ↔ mem.Ends max call := by
  cases call with
  | registerObj key obj =>
    have hu := used_lt_iff (mem.entries 0 max)
    rw [length_entries, exists_entries, ← not_full_iff] at hu
    show (∀ i ∈ (mem.registerObj max key obj).2, i < max) ↔ ¬mem.Full max
    rw [registerObj_eq, ← hu]
    simp only [List.mem_range'_1]
    constructor
    · intro h
      exact h _ (by omega)
    · intro h i hi
      omega
  | getObj key =>
    show (∀ j ∈ (mem.getScan max key (max + 1) 0).2, j < max) ↔
      (mem.Full max → ∃ i < max, (mem i).key = key)
    rw [getScan_inside max mem key (Nat.zero_add max), exists_entries]
    constructor
    · rintro ⟨i, hi, hnone | hkey⟩ hfull
      · exact absurd hfull ((not_full_iff max mem).mpr ⟨i, hi, hnone⟩)
      · exact ⟨i, hi, hkey⟩
    · intro h
      by_cases hfull : mem.Full max
      · obtain ⟨i, hi, hkey⟩ := h hfull
        exact ⟨i, hi, .inr hkey⟩
      · obtain ⟨i, hi, hnone⟩ := (not_full_iff max mem).mp hfull
        exact ⟨i, hi, .inl hnone⟩

/-- Calls one after the other on a table of `max` entries. -/
def machine (ο : Type) (max : Nat) : Machine (RawRegistry ο) (Call ο) where
  init mem := ∃ before, mem = create before
  step mem
    | .registerObj key obj => some (mem.registerObj max key obj).1.2
    | .getObj _ => some mem

/-- Objects a call tries to enter. -/
def Call.objects : Call ο → Nat
  | .registerObj _ (some _) => 1
  | _ => 0

/-- Where the table has room, it is written at its first empty entry and cleared behind it. -/
theorem objMap_registerObj (r : DistObjRegistry ο) (key : UInt32) (obj : Option ο)
    (h : DistObjRegistry.used r.objMap ≠ r.objMap.length) :
    (r.registerObj key obj).2.objMap =
      (r.objMap.set (DistObjRegistry.used r.objMap) { key, obj }).modify
        (DistObjRegistry.used r.objMap + 1) fun m ↦ { m with obj := none } := by
  rw [DistObjRegistry.registerObj]
  simp only [if_neg h]
  split
  · rfl
  · rw [List.modify_eq_self]
    rw [List.length_set]
    omega

theorem used_set_none (key : UInt32) (ms : List (ObjMap ο)) :
    DistObjRegistry.used ((ms.set (DistObjRegistry.used ms) { key, obj := none }).modify
      (DistObjRegistry.used ms + 1) fun m ↦ { m with obj := none }) = DistObjRegistry.used ms := by
  induction ms with
  | nil => rfl
  | cons m ms ih => cases h : m.obj <;> simp [DistObjRegistry.used, h, ih]

/-- Each object entered uses one more entry while there is one; a null pointer uses none. -/
theorem used_registerObj (r : DistObjRegistry ο) (key : UInt32) (obj : Option ο) :
    DistObjRegistry.used (r.registerObj key obj).2.objMap =
      min r.objMap.length (DistObjRegistry.used r.objMap + (Call.registerObj key obj).objects) := by
  have hle := used_le r.objMap
  by_cases hfull : DistObjRegistry.used r.objMap = r.objMap.length
  · have he : (r.registerObj key obj).2 = r := congrArg Prod.snd (if_pos hfull)
    rw [he]
    omega
  · rw [objMap_registerObj r key obj hfull]
    cases obj with
    | none =>
      rw [used_set_none]
      exact (Nat.min_eq_right hle).symm
    | some o =>
      have hlt : DistObjRegistry.used r.objMap < r.objMap.length := by omega
      rw [DistObjRegistry.used_eq, DistObjRegistry.entered_append key o hlt, List.length_append,
        ← DistObjRegistry.used_eq]
      exact (Nat.min_eq_right hlt).symm

theorem used_step {max : Nat} {mem mem' : RawRegistry ο} {call : Call ο}
    (h : (machine ο max).step mem call = some mem') :
    DistObjRegistry.used (mem'.entries 0 max) =
      min max (DistObjRegistry.used (mem.entries 0 max) + call.objects) := by
  cases call with
  | getObj key =>
    cases h
    have hle := used_le (mem.entries 0 max)
    rw [length_entries] at hle
    exact (Nat.min_eq_right hle).symm
  | registerObj key obj =>
    cases h
    have hu := used_registerObj (mem.registry max) key obj
    rw [← (registerObj_refines max mem key obj).2] at hu
    simpa [registry] using hu

theorem used_run {max : Nat} {mem mem' : RawRegistry ο} {calls : List (Call ο)}
    (h : (machine ο max).run mem calls = some mem') :
    DistObjRegistry.used (mem'.entries 0 max) =
      min max (DistObjRegistry.used (mem.entries 0 max) + (calls.map Call.objects).sum) := by
  induction calls generalizing mem with
  | nil =>
    cases h
    have hle := used_le (mem'.entries 0 max)
    rw [length_entries] at hle
    exact (Nat.min_eq_right hle).symm
  | cons call calls ih =>
    obtain ⟨next, hstep, hrun⟩ := Option.bind_eq_some_iff.mp h
    rw [ih hrun, used_step hstep, List.map_cons, List.sum_cons]
    omega

theorem used_create (max : Nat) (before : RawRegistry ο) :
    DistObjRegistry.used ((create before).entries 0 max) = 0 := by
  cases max with
  | zero => rfl
  | succ max => simp [entries_succ, create, DistObjRegistry.used]

/-- After a run from the empty registry the table is full once as many objects came as it has
entries. -/
theorem full_iff {max : Nat} {before mem : RawRegistry ο} {calls : List (Call ο)}
    (h : (machine ο max).run (create before) calls = some mem) :
    mem.Full max ↔ max ≤ (calls.map Call.objects).sum := by
  have hu := used_lt_iff (mem.entries 0 max)
  rw [length_entries, exists_entries, ← not_full_iff, used_run h, used_create, Nat.zero_add] at hu
  have hnot := not_congr hu
  rw [not_not] at hnot
  rw [← hnot]
  omega

/-- From an empty registry of any size, all scans of a sequence of calls stay inside the table
exactly if each call comes to a table with room or looks for a key that is in it. -/
theorem scans_inside_iff (max : Nat) (before : RawRegistry ο) (calls : List (Call ο)) :
    (machine ο max).Along (Inside max) (create before) calls ↔
      (machine ο max).Along (Ends max) (create before) calls :=
  Machine.along_congr (I := fun _ ↦ True) (fun mem call _ ↦ inside_iff_ends max mem call)
    (fun _ _ _ _ _ _ ↦ trivial) trivial calls

/-- On a table of one entry, a lookup of a second key after one registration looks behind it. -/
theorem not_scans_inside : ¬∀ (max : Nat) (before : RawRegistry Bool) (calls : List (Call Bool)),
    1 ≤ max → (machine Bool max).Along (Inside max) (create before) calls := by
  intro h
  have hg := ((h 1 (fun _ ↦ ⟨0, none⟩) [.registerObj 7 (some true), .getObj 8] (by decide)).2 _
    rfl).1
  exact absurd (hg 1 (by decide)) (by decide)

end RawRegistry
end CtrlrFx.DistObj
