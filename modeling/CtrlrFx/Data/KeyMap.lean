import CtrlrFx.Data.KeyArray

/-!
# Arrays with keys as maps

What `CtrlrFx/KeyArray.h` says the array can be used like, a map. A put looks for a free slot only,
not for the key.
-/

namespace CtrlrFx.Data
open Base

namespace KeyArray

/-- A key that may be used, which is not that of a free slot. -/
abbrev Key (K : Type) [Zero K] : Type := { k : K // k ≠ 0 }

variable {K T : Type} [DecidableEq K] [Zero K]

/-- The array, with what was put under each key and not taken out since. -/
structure Mapped (K T : Type) where
  arr : KeyArray K T
  map : K → Option T

/-- Calls by key. -/
inductive MapOp (K T : Type) [Zero K] where
  | put (key : Key K) (val : T)
  | get (key : Key K)
  | remove (key : Key K)
  | clear

namespace Mapped

/-- A call, of which the map keeps what it reported. -/
def step (s : Mapped K T) : MapOp K T → Mapped K T
  | .put key val =>
    let r := s.arr.put key.1 val
    { arr := r.2, map := if 0 ≤ r.1 then Function.update s.map key.1 (some val) else s.map }
  | .get key =>
    let r := s.arr.get key.1
    { arr := r.2, map := if r.1.isSome then Function.update s.map key.1 none else s.map }
  | .remove key =>
    let r := s.arr.remove key.1
    { arr := r.2, map := if r.1 then Function.update s.map key.1 none else s.map }
  | .clear => { arr := s.arr.clear, map := fun _ ↦ none }

/-- An array just constructed. -/
def start (mem : Nat → KeyPair K T) (cap : Nat) : Mapped K T :=
  { arr := create mem cap, map := fun _ ↦ none }

/-- A key is in one slot at most, and a get finds the keys of the map with their values, and leaves
them absent. -/
structure Agrees (s : Mapped K T) : Prop where
  unique : ∀ key ≠ 0, ∀ i j, s.arr.HasAt key i → s.arr.HasAt key j → i = j
  get_eq : ∀ key ≠ 0, (s.arr.get key).1 = s.map key
  get_absent : ∀ key ≠ 0, ¬(s.arr.get key).2.Contains key

/-- A put that fails has changed nothing, found no free slot, and is not of a key that is there. -/
def PutFails (s : Mapped K T) : MapOp K T → Prop
  | .put key val => (s.arr.put key.1 val).1 < 0 →
    (s.arr.put key.1 val).2 = s.arr ∧ s.arr.Full ∧ ¬s.arr.Contains key.1
  | _ => True

/-- A call after which the array is still a map. -/
def Keeps (s : Mapped K T) (op : MapOp K T) : Prop := s.PutFails op ∧ (s.step op).Agrees

/-- The key of a put is not there yet, and a free slot, if there is any, is in reach of an `int`. -/
def Careful (s : Mapped K T) : MapOp K T → Prop
  | .put key _ => ¬s.arr.Contains key.1 ∧
    (s.arr.Full ∨ ∃ i < 2 ^ 31, i < s.arr.size ∧ (s.arr.mem i).key = 0)
  | _ => True

/-- The map is what the slots hold. -/
structure Rep (s : Mapped K T) : Prop where
  near : s.arr.Near
  unique : ∀ key ≠ 0, ∀ i j, s.arr.HasAt key i → s.arr.HasAt key j → i = j
  map_iff : ∀ key ≠ 0, ∀ val, s.map key = some val ↔
    ∃ i, s.arr.HasAt key i ∧ (s.arr.mem i).val = val

variable {s : Mapped K T}

omit [DecidableEq K] in
theorem Rep.map_of_hasAt (h : s.Rep) {key : K} (hk : key ≠ 0) {i : Nat}
    (hi : s.arr.HasAt key i) : s.map key = some (s.arr.mem i).val :=
  (h.map_iff key hk _).mpr ⟨i, hi, rfl⟩

omit [DecidableEq K] in
theorem Rep.map_of_not (h : s.Rep) {key : K} (hk : key ≠ 0) (hn : ¬s.arr.Contains key) :
    s.map key = none := by
  cases hm : s.map key with
  | none => rfl
  | some val =>
    rcases (h.map_iff key hk val).mp hm with ⟨i, hi, -⟩
    exact absurd ⟨i, hi⟩ hn

theorem Rep.agrees (h : s.Rep) : s.Agrees where
  unique := h.unique
  get_eq := by
    intro key hk
    rcases h.near.get_cases hk with ⟨i, hi, hg⟩ | ⟨hn, hg⟩
    · rw [hg, h.map_of_hasAt hk hi]
    · rw [hg, h.map_of_not hk hn]
  get_absent := by
    intro key hk
    rcases h.near.get_cases hk with ⟨i, hi, hg⟩ | ⟨hn, hg⟩
    · rw [hg, contains_iff]
      rintro ⟨j, hj⟩
      rcases (hasAt_store hi.1 _).mp hj with ⟨-, h0⟩ | ⟨hne, hj⟩
      · exact hk h0.symm
      · exact hne (h.unique key hk j i hj hi)
    · rw [hg]
      exact hn

omit [DecidableEq K] in
theorem rep_clear (a : KeyArray K T) : Rep { arr := a.clear, map := fun _ ↦ none } := by
  have hno : ∀ key ≠ 0, ∀ i, ¬a.clear.HasAt key i := by
    rintro key hk i ⟨hi, rfl⟩
    rw [clear_eq] at hi hk
    simp only [if_pos (show i < a.size from hi)] at hk
    exact hk rfl
  constructor
  · exact near_clear a
  · intro key hk i j hi _
    exact absurd hi (hno key hk i)
  · intro key hk val
    constructor
    · intro h
      cases h
    · rintro ⟨i, hi, -⟩
      exact absurd hi (hno key hk i)

/-- A key that is not there yet may take a free slot. -/
theorem Rep.store (h : s.Rep) {key : K} (hk : key ≠ 0) (val : T) (hn : ¬s.arr.Contains key)
    {i : Nat} (hlt : i < 2 ^ 31) (hi : s.arr.HasAt 0 i) :
    Rep { arr := s.arr.store i { key, val }, map := Function.update s.map key (some val) } := by
  have hat : ∀ {k j}, k ≠ key → k ≠ 0 →
      ((s.arr.store i { key, val }).HasAt k j ↔ s.arr.HasAt k j) := by
    intro k j hne h0
    rw [hasAt_store hi.1]
    constructor
    · rintro (⟨-, he⟩ | ⟨-, hj⟩)
      · exact absurd he.symm hne
      · exact hj
    · intro hj
      refine .inr ⟨?_, hj⟩
      rintro rfl
      exact h0 (hj.2.symm.trans hi.2)
  have hself : ∀ {j}, (s.arr.store i { key, val }).HasAt key j ↔ j = i := by
    intro j
    rw [hasAt_store hi.1]
    constructor
    · rintro (⟨rfl, -⟩ | ⟨-, hj⟩)
      · rfl
      · exact absurd ⟨j, hj⟩ hn
    · rintro rfl
      exact .inl ⟨rfl, rfl⟩
  constructor
  · exact near_store h.near hlt _
  · intro k h0 j j' hj hj'
    by_cases he : k = key
    · subst he
      rw [hself.mp hj, hself.mp hj']
    · exact h.unique k h0 j j' ((hat he h0).mp hj) ((hat he h0).mp hj')
  · intro k h0 v
    by_cases he : k = key
    · subst he
      simp [hself]
    · simp only [Function.update_of_ne he, h.map_iff k h0, mem_store]
      apply exists_congr
      intro j
      rw [hat he h0]
      apply and_congr_right
      intro hj
      have hne : j ≠ i := by
        rintro rfl
        exact h0 (hj.2.symm.trans hi.2)
      rw [Function.update_of_ne hne]

/-- A slot that is freed takes its key from the map. -/
theorem Rep.erase (h : s.Rep) {key : K} (hk : key ≠ 0) {i : Nat} (hi : s.arr.HasAt key i) :
    Rep { arr := s.arr.erase i, map := Function.update s.map key none } := by
  have hat : ∀ {k j}, k ≠ 0 → ((s.arr.erase i).HasAt k j ↔ k ≠ key ∧ s.arr.HasAt k j) := by
    intro k j h0
    rw [KeyArray.erase, hasAt_store hi.1]
    constructor
    · rintro (⟨-, he⟩ | ⟨hne, hj⟩)
      · exact absurd he.symm h0
      · refine ⟨?_, hj⟩
        rintro rfl
        exact hne (h.unique k hk j i hj hi)
    · rintro ⟨hne, hj⟩
      refine .inr ⟨?_, hj⟩
      rintro rfl
      exact hne (hj.2.symm.trans hi.2)
  constructor
  · exact near_erase h.near i
  · intro k h0 j j' hj hj'
    exact h.unique k h0 j j' ((hat h0).mp hj).2 ((hat h0).mp hj').2
  · intro k h0 v
    by_cases he : k = key
    · subst he
      simp [hat h0]
    · simp only [Function.update_of_ne he, h.map_iff k h0]
      apply exists_congr
      intro j
      rw [hat h0, and_iff_right he]
      apply and_congr_right
      intro hj
      have hne : j ≠ i := by
        rintro rfl
        exact he (hj.2.symm.trans hi.2)
      rw [KeyArray.erase, mem_store, Function.update_of_ne hne]

theorem Rep.step (h : s.Rep) {op : MapOp K T} (hc : s.Careful op) : (s.step op).Rep := by
  cases op with
  | put key val =>
    rcases hc with ⟨hn, hroom⟩
    simp only [Mapped.step]
    rcases h.near.put_cases key.1 val with ⟨i, hp, hlt, hi⟩ | ⟨r, hr, hp, -⟩
    · rw [hp, if_pos (Int.natCast_nonneg i)]
      exact h.store key.2 val hn hlt hi
    · rw [hp, if_neg (Int.not_le.mpr hr)]
      exact h
  | get key =>
    simp only [Mapped.step]
    rcases h.near.get_cases key.2 with ⟨i, hi, hg⟩ | ⟨-, hg⟩
    · rw [hg]
      exact h.erase key.2 hi
    · rw [hg]
      exact h
  | remove key =>
    simp only [Mapped.step]
    rcases h.near.remove_cases key.2 with ⟨i, hi, hg⟩ | ⟨-, hg⟩
    · rw [hg]
      exact h.erase key.2 hi
    · rw [hg]
      exact h
  | clear => exact rep_clear s.arr

/-- While the map is what the slots hold, a call keeps to it exactly if it is careful. -/
theorem Rep.keeps_iff (h : s.Rep) (op : MapOp K T) : s.Keeps op ↔ s.Careful op := by
  constructor
  · rintro ⟨hf, ha⟩
    cases op with
    | put key val =>
      have hput := ha.unique key.1 key.2
      simp only [Mapped.step] at hput
      rcases h.near.put_cases key.1 val with ⟨i, hp, hlt, hi⟩ | ⟨r, hr, hp, -⟩
      · rw [hp] at hput
        refine ⟨?_, .inr ⟨i, hlt, hi⟩⟩
        -- a second slot with the key is not the one that was free
        rintro ⟨j, hj⟩
        have hne : j ≠ i := by
          rintro rfl
          exact key.2 (hj.2.symm.trans hi.2)
        exact hne (hput j i ((hasAt_store hi.1 _).mpr (.inr ⟨hne, hj⟩))
          ((hasAt_store hi.1 _).mpr (.inl ⟨rfl, rfl⟩)))
      · rw [PutFails, hp] at hf
        rcases hf hr with ⟨-, hfull, hn⟩
        exact ⟨hn, .inl hfull⟩
    | _ => trivial
  · intro hc
    refine ⟨?_, (h.step hc).agrees⟩
    cases op with
    | put key val =>
      rcases hc with ⟨hn, hroom⟩
      rcases h.near.put_cases key.1 val with ⟨i, hp, -⟩ | ⟨r, -, hp, hno⟩
      · rw [PutFails, hp]
        intro hr
        exact absurd (Int.natCast_nonneg i) (Int.not_le.mpr hr)
      · rw [PutFails, hp]
        intro _
        refine ⟨rfl, ?_, hn⟩
        rcases hno with hfull | hfar
        · exact hfull
        · rcases hroom with hfull | ⟨i, hlt, hi, h0⟩
          · exact hfull
          · exact absurd h0 (hfar i hlt hi)
    | _ => trivial

/-- The array and its map as a machine. -/
def machine (mem : Nat → KeyPair K T) (cap : Nat) : Machine (Mapped K T) (MapOp K T) where
  init s := s = start mem cap
  step s op := some (s.step op)

end Mapped
end KeyArray
end CtrlrFx.Data
