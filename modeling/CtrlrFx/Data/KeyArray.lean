import CtrlrFx.Base.Machine
import CtrlrFx.Base.Words
import Mathlib.Logic.Function.Basic

/-!
# Arrays with keys

`CtrlrFx/KeyArray.h`: slots that are found by the key that they hold. The key `EMPTY_SLOT`, which is
zero, marks a slot as free. A slot is addressed by an `int`, and `stray` is set by an access to one
that the array does not have.
-/

namespace CtrlrFx.Data
open Base

/-- `CtrlrFx/KeyArray.h:31`. -/
structure KeyPair (K T : Type) where
  key : K
  val : T
  deriving DecidableEq, Repr

/-- The array, `CtrlrFx/KeyArray.h:32`, as the memory that it lies in. -/
structure KeyArray (K T : Type) where
  mem : Nat → KeyPair K T
  size : Nat
  stray : Bool

namespace KeyArray

variable {K T : Type}

/-! ### Slots -/

/-- Slot `i` is one of the array, and has this key. -/
def HasAt (a : KeyArray K T) (key : K) (i : Nat) : Prop := i < a.size ∧ (a.mem i).key = key

/-- Some slot has this key. -/
def Contains (a : KeyArray K T) (key : K) : Prop := ∃ i < a.size, (a.mem i).key = key

/-- Notes an access to slot `i`. -/
def touch (a : KeyArray K T) (i : Nat) : KeyArray K T :=
  if i < a.size then a else { a with stray := true }

/-- `arr_[i] = p`. -/
def store (a : KeyArray K T) (i : Nat) (p : KeyPair K T) : KeyArray K T :=
  { a.touch i with mem := Function.update a.mem i p }

theorem contains_iff {a : KeyArray K T} {key : K} : a.Contains key ↔ ∃ i, a.HasAt key i := Iff.rfl

theorem touch_of_lt {a : KeyArray K T} {i : Nat} (h : i < a.size) : a.touch i = a := if_pos h

theorem store_of_lt {a : KeyArray K T} {i : Nat} (h : i < a.size) (p : KeyPair K T) :
    a.store i p = { a with mem := Function.update a.mem i p } := by
  rw [store, touch_of_lt h]

@[simp] theorem size_store (a : KeyArray K T) (i : Nat) (p : KeyPair K T) :
    (a.store i p).size = a.size := by
  unfold store touch
  split <;> rfl

@[simp] theorem mem_store (a : KeyArray K T) (i : Nat) (p : KeyPair K T) :
    (a.store i p).mem = Function.update a.mem i p := rfl

/-- A slot has the key that was stored in it last. -/
theorem hasAt_store {a : KeyArray K T} {i : Nat} (hi : i < a.size) (p : KeyPair K T) {key : K}
    {j : Nat} : (a.store i p).HasAt key j ↔ j = i ∧ p.key = key ∨ j ≠ i ∧ a.HasAt key j := by
  by_cases hj : j = i
  · subst hj
    simp [HasAt, hi]
  · simp [HasAt, hj]

theorem stray_store (a : KeyArray K T) (i : Nat) (p : KeyPair K T) :
    (a.store i p).stray = false ↔ a.stray = false ∧ i < a.size := by
  by_cases h : i < a.size <;> simp [store, touch, h]

section Erase

variable [Zero K]

/-- `arr_[i].key = EMPTY_SLOT`. -/
def erase (a : KeyArray K T) (i : Nat) : KeyArray K T := a.store i { a.mem i with key := 0 }

/-- `CtrlrFx/KeyArray.h:199–203`. -/
def clear (a : KeyArray K T) : KeyArray K T := (List.range a.size).foldl erase a

/-- On new memory; `CtrlrFx/KeyArray.h:121–124`. -/
def create (mem : Nat → KeyPair K T) (cap : Nat) : KeyArray K T :=
  clear { mem, size := cap, stray := false }

/-- Erasing slots one after the other frees them. -/
theorem foldl_erase (a : KeyArray K T) {n : Nat} (h : n ≤ a.size) :
    (List.range n).foldl erase a =
      { a with mem := fun i ↦ if i < n then { a.mem i with key := 0 } else a.mem i } := by
  induction n with
  | zero => simp
  | succ n ih =>
    rw [List.range_succ, List.foldl_append, ih (by omega), List.foldl_cons, List.foldl_nil, erase,
      store_of_lt (by show n < a.size; omega)]
    congr 1
    funext i
    by_cases hi : i = n
    · subst hi
      simp
    · have hlt : i < n ↔ i < n + 1 := by omega
      simp [Function.update_of_ne hi, hlt]

theorem clear_eq (a : KeyArray K T) :
    a.clear =
      { a with mem := fun i ↦ if i < a.size then { a.mem i with key := 0 } else a.mem i } :=
  foldl_erase a (Nat.le_refl _)

/-- Occupied slots are within reach of an `int`, by which everything is put. -/
def Near (a : KeyArray K T) : Prop := ∀ i < a.size, (a.mem i).key ≠ 0 → i < 2 ^ 31

theorem near_store {a : KeyArray K T} (h : a.Near) {i : Nat} (hi : i < 2 ^ 31)
    (p : KeyPair K T) : (a.store i p).Near := by
  intro j hj hkey
  rw [size_store] at hj
  by_cases he : j = i
  · rwa [he]
  · rw [mem_store, Function.update_of_ne he] at hkey
    exact h j hj hkey

theorem near_erase {a : KeyArray K T} (h : a.Near) (i : Nat) : (a.erase i).Near := by
  intro j hj hkey
  rw [erase, size_store] at hj
  by_cases he : j = i
  · subst he
    simp [erase] at hkey
  · rw [erase, mem_store, Function.update_of_ne he] at hkey
    exact h j hj hkey

theorem near_clear (a : KeyArray K T) : a.clear.Near := by
  rw [clear_eq]
  intro i hi hkey
  simp only [if_pos (show i < a.size from hi)] at hkey
  exact absurd rfl hkey

end Erase

/-! ### Operations -/

variable [DecidableEq K]

instance (a : KeyArray K T) (key : K) : Decidable (a.Contains key) :=
  inferInstanceAs (Decidable (∃ i < a.size, (a.mem i).key = key))

/-- Where the loop of `find` stops. -/
def firstAt (a : KeyArray K T) (key : K) : Option Nat :=
  (List.range a.size).find? fun i ↦ (a.mem i).key = key

/-- `CtrlrFx/KeyArray.h:142–150`. -/
def find (a : KeyArray K T) (key : K) : Int :=
  match a.firstAt key with
  | some i => toInt32 i
  | none => -1

theorem firstAt_eq_some {a : KeyArray K T} {key : K} {i : Nat} :
    a.firstAt key = some i ↔ a.HasAt key i ∧ ∀ j < i, (a.mem j).key ≠ key := by
  rw [firstAt, List.find?_range_eq_some, HasAt]
  simp [and_left_comm, and_assoc]

theorem firstAt_eq_none {a : KeyArray K T} {key : K} :
    a.firstAt key = none ↔ ¬a.Contains key := by
  simp [firstAt, Contains]

variable [Zero K]

/-- No slot is free. -/
def Full (a : KeyArray K T) : Prop := ¬a.Contains 0

instance (a : KeyArray K T) : Decidable a.Full := inferInstanceAs (Decidable ¬a.Contains 0)

/-- `CtrlrFx/KeyArray.h:134–139`. -/
def isEmptyAt (a : KeyArray K T) (i : Int) : Bool :=
  if i < 0 ∨ a.size ≤ i.toNat then false else (a.mem i.toNat).key = 0

/-- `CtrlrFx/KeyArray.h:153–162`. -/
def put (a : KeyArray K T) (key : K) (val : T) : Int × KeyArray K T :=
  let i := a.find 0
  if 0 ≤ i then (i, a.store i.toNat { key, val }) else (i, a)

/-- `CtrlrFx/KeyArray.h:165–174`. -/
def getAt (a : KeyArray K T) (i : Int) : Option T × KeyArray K T :=
  if 0 ≤ i then (some (a.mem i.toNat).val, a.erase i.toNat) else (none, a)

/-- `CtrlrFx/KeyArray.h:177–180`. -/
def get (a : KeyArray K T) (key : K) : Option T × KeyArray K T := a.getAt (a.find key)

/-- `CtrlrFx/KeyArray.h:183–190`. -/
def removeAt (a : KeyArray K T) (i : Int) : Bool × KeyArray K T :=
  if 0 ≤ i ∧ i.toNat < a.size then (true, a.erase i.toNat) else (false, a)

/-- `CtrlrFx/KeyArray.h:193–196`. -/
def remove (a : KeyArray K T) (key : K) : Bool × KeyArray K T := a.removeAt (a.find key)

/-- A key that is not that of a free slot is found where it is first. -/
theorem Near.find_cases {a : KeyArray K T} (h : a.Near) {key : K} (hk : key ≠ 0) :
    (∃ i : Nat, a.find key = i ∧ a.HasAt key i) ∨ a.find key = -1 ∧ ¬a.Contains key := by
  unfold find
  cases hf : a.firstAt key with
  | none => exact .inr ⟨rfl, firstAt_eq_none.mp hf⟩
  | some i =>
    have hi := (firstAt_eq_some.mp hf).1
    have hlt := h i hi.1 (by rw [hi.2]; exact hk)
    exact .inl ⟨i, toInt32_of_lt i (by omega) (by omega), hi⟩

/-- The first free slot is found, unless there is none, or it is just out of reach. -/
theorem Near.find_zero_cases {a : KeyArray K T} (h : a.Near) :
    (∃ i : Nat, a.find 0 = i ∧ i < 2 ^ 31 ∧ a.HasAt 0 i) ∨ a.find 0 < 0 ∧ a.Full ∨
      a.find 0 < 0 ∧ ¬a.Full ∧ ∀ i < 2 ^ 31, i < a.size → (a.mem i).key ≠ 0 := by
  unfold find
  cases hf : a.firstAt 0 with
  | none => exact .inr (.inl ⟨by decide, firstAt_eq_none.mp hf⟩)
  | some i =>
    rcases firstAt_eq_some.mp hf with ⟨hi, hbelow⟩
    by_cases hlt : i < 2 ^ 31
    · exact .inl ⟨i, toInt32_of_lt i (by omega) (by omega), hlt, hi⟩
    · have hsize := hi.1
      have hle : ¬2 ^ 31 < i := by
        intro hlt
        exact absurd (h (2 ^ 31) (by omega) (hbelow _ hlt)) (Nat.lt_irrefl _)
      have heq : i = 2 ^ 31 := by omega
      subst heq
      refine .inr (.inr ⟨by decide, ?_, fun j hj _ ↦ hbelow j hj⟩)
      exact not_not_intro ⟨_, hi⟩

/-- A value is put into the first free slot. Without one in reach of an `int` nothing is put. -/
theorem Near.put_cases {a : KeyArray K T} (h : a.Near) (key : K) (val : T) :
    (∃ i : Nat, a.put key val = ((i : Int), a.store i { key, val }) ∧ i < 2 ^ 31 ∧ a.HasAt 0 i) ∨
      ∃ r < 0, a.put key val = (r, a) ∧
        (a.Full ∨ ∀ i < 2 ^ 31, i < a.size → (a.mem i).key ≠ 0) := by
  rcases h.find_zero_cases with ⟨i, hf, hi⟩ | ⟨hf, hfull⟩ | ⟨hf, -, hfar⟩
  · left
    refine ⟨i, ?_, hi⟩
    rw [put, hf]
    rfl
  · right
    exact ⟨a.find 0, hf, if_neg (Int.not_le.mpr hf), .inl hfull⟩
  · right
    exact ⟨a.find 0, hf, if_neg (Int.not_le.mpr hf), .inr hfar⟩

theorem Near.get_cases {a : KeyArray K T} (h : a.Near) {key : K} (hk : key ≠ 0) :
    (∃ i, a.HasAt key i ∧ a.get key = (some (a.mem i).val, a.erase i)) ∨
      ¬a.Contains key ∧ a.get key = (none, a) := by
  unfold get getAt
  rcases h.find_cases hk with ⟨i, hf, hi⟩ | ⟨hf, hn⟩
  · rw [hf]
    exact .inl ⟨i, hi, rfl⟩
  · rw [hf]
    exact .inr ⟨hn, rfl⟩

theorem Near.remove_cases {a : KeyArray K T} (h : a.Near) {key : K} (hk : key ≠ 0) :
    (∃ i, a.HasAt key i ∧ a.remove key = (true, a.erase i)) ∨
      ¬a.Contains key ∧ a.remove key = (false, a) := by
  unfold remove removeAt
  rcases h.find_cases hk with ⟨i, hf, hi⟩ | ⟨hf, hn⟩
  · rw [hf]
    exact .inl ⟨i, hi, if_pos ⟨Int.natCast_nonneg i, hi.1⟩⟩
  · rw [hf]
    exact .inr ⟨hn, rfl⟩

end KeyArray
end CtrlrFx.Data
