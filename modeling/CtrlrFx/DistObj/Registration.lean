import CtrlrFx.Base.Machine
import CtrlrFx.DistObj.Registry

/-!
# Registering objects

What `register_obj` of `src/DistObj/DistObj.cpp` does to the lookups. An object is entered behind
the others without a look at their keys, and lookups take the first match. Objects are known by
their addresses here.
-/

namespace CtrlrFx.DistObj
open Base Data

namespace DistObjRegistry

variable {ο σ : Type}

/-- The entries before the first empty one. -/
def entered : List (ObjMap ο) → List (UInt32 × ο)
  | [] => []
  | m :: ms =>
    match m.obj with
    | none => []
    | some o => (m.key, o) :: entered ms

theorem used_eq (ms : List (ObjMap ο)) : used ms = (entered ms).length := by
  induction ms with
  | nil => rfl
  | cons m ms ih => cases h : m.obj <;> simp [used, entered, h, ih]

theorem lookup_eq (key : UInt32) (ms : List (ObjMap ο)) :
    lookup key ms = ((entered ms).find? fun e ↦ e.1 = key).map Prod.snd := by
  induction ms with
  | nil => rfl
  | cons m ms ih =>
    cases h : m.obj with
    | none => simp [lookup, entered, h]
    | some o => by_cases hk : m.key = key <;> simp [lookup, entered, h, hk, ih]

/-- Entering an object behind the others, and moving the empty entry, appends it to them. -/
theorem entered_append (key : UInt32) (o : ο) {ms : List (ObjMap ο)} (h : used ms < ms.length) :
    entered ((ms.set (used ms) { key, obj := some o }).modify (used ms + 1)
      fun m ↦ { m with obj := none }) = entered ms ++ [(key, o)] := by
  induction ms with
  | nil => cases h
  | cons m ms ih =>
    cases hm : m.obj with
    | none =>
      have hnil : entered (ms.modify 0 fun m ↦ { m with obj := none }) = [] := by
        cases ms <;> simp [entered]
      simp [used, entered, hm, hnil]
    | some p =>
      have hlt : used ms < ms.length := by simpa [used, hm] using h
      have hi := ih hlt
      simp [used, entered, hm, hi]

/-- A registration is refused by a full table, and appended otherwise. -/
theorem registerObj_cases (r : DistObjRegistry ο) (key : UInt32) (o : ο) :
    (used r.objMap = r.objMap.length ∧ r.registerObj key (some o) = (-2, r)) ∨
      (used r.objMap ≠ r.objMap.length ∧ 0 ≤ (r.registerObj key (some o)).1 ∧
        entered (r.registerObj key (some o)).2.objMap = entered r.objMap ++ [(key, o)]) := by
  have hle : used r.objMap ≤ r.objMap.length := by
    induction r.objMap with
    | nil => exact Nat.le_refl 0
    | cons m ms ih => cases h : m.obj <;> simp [used, h, ih]
  by_cases hfull : used r.objMap = r.objMap.length
  · left
    exact ⟨hfull, if_pos hfull⟩
  · right
    have hlt : used r.objMap < r.objMap.length := by omega
    refine ⟨hfull, ?_⟩
    rw [← entered_append key o hlt, registerObj]
    simp only [if_neg hfull]
    split
    · exact ⟨Int.natCast_nonneg (used r.objMap + 1), rfl⟩
    · refine ⟨Int.natCast_nonneg (used r.objMap), ?_⟩
      rw [List.modify_eq_self]
      rw [List.length_set]
      omega

/-- A lookup finds what it found before, and else the new object under its key. -/
theorem getObj_of_append {r r' : DistObjRegistry ο} {key : UInt32} {o : ο}
    (h : entered r'.objMap = entered r.objMap ++ [(key, o)]) (k : UInt32) :
    r'.getObj k = (r.getObj k).or (if key = k then some o else none) := by
  rw [getObj, getObj, lookup_eq, lookup_eq, h, List.find?_append]
  by_cases hk : key = k <;> cases (entered r.objMap).find? (fun e ↦ e.1 = k) <;> simp [hk]

/-- The registry with what is found at each of the addresses. -/
def deref (objs : ο → IDistObj σ) (r : DistObjRegistry ο) : DistObjRegistry (IDistObj σ) :=
  { objMap := r.objMap.map fun m ↦ { key := m.key, obj := m.obj.map objs } }

theorem getObj_deref (objs : ο → IDistObj σ) (r : DistObjRegistry ο) (key : UInt32) :
    (r.deref objs).getObj key = (r.getObj key).map objs := by
  show lookup key (r.objMap.map _) = (lookup key r.objMap).map objs
  induction r.objMap with
  | nil => rfl
  | cons m ms ih =>
    cases h : m.obj with
    | none => simp [lookup, h]
    | some o => by_cases hk : m.key = key <;> simp [lookup, h, hk, ih]

/-- What a registration promises: after one that succeeds the key leads to its object, also through
`dispatch`, and all other lookups are as before; after one that fails all are. -/
structure Registers (objs : ο → IDistObj σ) (r : DistObjRegistry ο) (call : UInt32 × ο) : Prop where
  found : 0 ≤ (r.registerObj call.1 (some call.2)).1 →
    (r.registerObj call.1 (some call.2)).2.getObj call.1 = some call.2
  others : 0 ≤ (r.registerObj call.1 (some call.2)).1 → ∀ key ≠ call.1,
    (r.registerObj call.1 (some call.2)).2.getObj key = r.getObj key
  invoked : 0 ≤ (r.registerObj call.1 (some call.2)).1 → ∀ op param rsp s,
    ((r.registerObj call.1 (some call.2)).2.deref objs).dispatch call.1 op param rsp s =
      (objs call.2).invoke op param rsp s
  refused : (r.registerObj call.1 (some call.2)).1 < 0 → ∀ key,
    (r.registerObj call.1 (some call.2)).2.getObj key = r.getObj key

/-- The key leads nowhere yet, or to this object, or the table is full. -/
def Careful (r : DistObjRegistry ο) (call : UInt32 × ο) : Prop :=
  r.getObj call.1 = none ∨ r.getObj call.1 = some call.2 ∨ used r.objMap = r.objMap.length

theorem registers_iff_careful (objs : ο → IDistObj σ) (r : DistObjRegistry ο)
    (call : UInt32 × ο) : r.Registers objs call ↔ r.Careful call := by
  rcases call with ⟨key, o⟩
  rcases r.registerObj_cases key o with ⟨hfull, hr⟩ | ⟨hfull, h0, happ⟩
  · apply iff_of_true _ (.inr (.inr hfull))
    have hneg : ¬0 ≤ (r.registerObj key (some o)).1 := by
      rw [hr]
      exact (by decide : ¬(0 : Int) ≤ -2)
    constructor
    · exact fun h0 ↦ absurd h0 hneg
    · exact fun h0 ↦ absurd h0 hneg
    · exact fun h0 ↦ absurd h0 hneg
    · intro _ k
      rw [hr]
  · have hget := getObj_of_append happ
    constructor
    · intro h
      have hf := h.found h0
      rw [hget key, if_pos rfl] at hf
      rw [Careful]
      cases hk : r.getObj key with
      | none => exact .inl rfl
      | some p =>
        rw [hk, Option.some_or] at hf
        exact .inr (.inl hf)
    · intro hc
      have hf : (r.registerObj key (some o)).2.getObj key = some o := by
        rw [hget key, if_pos rfl]
        rcases hc with hn | hs | hu
        · rw [hn, Option.none_or]
        · rw [hs, Option.some_or]
        · exact absurd hu hfull
      constructor
      · exact fun _ ↦ hf
      · intro _ k hk
        rw [hget k, if_neg hk.symm, Option.or_none]
      · intro _ op param rsp s
        rw [dispatch, getObj_deref, hf]
        rfl
      · intro hneg
        exact absurd h0 (Int.not_le.mpr hneg)

/-- Registrations one after the other. -/
def machine (ο : Type) : Machine (DistObjRegistry ο) (UInt32 × ο) where
  init r := ∃ entries, r = create entries
  step r call := some (r.registerObj call.1 (some call.2)).2

/-- From an empty registry of any size, all registrations of a sequence keep their promises exactly
if each is of a key that leads nowhere yet or to the same object, or comes to a full table. -/
theorem registers_iff (objs : ο → IDistObj σ) (entries : List (ObjMap ο))
    (calls : List (UInt32 × ο)) :
    (machine ο).Along (Registers objs) (create entries) calls ↔
      (machine ο).Along Careful (create entries) calls :=
  Machine.along_congr (I := fun _ ↦ True) (fun r call _ ↦ registers_iff_careful objs r call)
    (fun _ _ _ _ _ _ ↦ trivial) trivial calls

/-- A second object under the same key is registered but never found. -/
theorem not_registers : ¬∀ (objs : Bool → IDistObj Unit) (entries : List (ObjMap Bool))
    (calls : List (UInt32 × Bool)),
    (machine Bool).Along (Registers objs) (create entries) calls := by
  intro h
  have hr := (h (fun _ ↦ ⟨fun _ param rsp _ ↦ ⟨0, param, rsp, ()⟩, fun _ _ _ _ ↦ rfl,
    fun _ _ _ _ ↦ rfl⟩) [⟨0, none⟩, ⟨0, none⟩, ⟨0, none⟩] [(7, true), (7, false)]).2 _ rfl
  exact absurd (hr.1.found (by decide)) (by decide)

end DistObjRegistry
end CtrlrFx.DistObj
