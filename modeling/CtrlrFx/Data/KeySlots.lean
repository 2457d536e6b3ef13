import CtrlrFx.Data.KeyMap

/-!
# Arrays with keys by index

`get_at` and `remove_at` of `CtrlrFx/KeyArray.h` promise to tell whether there was a value. One
looks at the sign of the index only, the other at its range. Each value is marked with the number
of the call that puts it.
-/

namespace CtrlrFx.Data
open Base

namespace KeyArray

variable {K T : Type}

section Occupied

variable [Zero K]

/-- Slot `i` is one of the array, and is not free. -/
def Occupied (a : KeyArray K T) (i : Nat) : Prop := i < a.size ∧ (a.mem i).key ≠ 0

theorem occupied_store {a : KeyArray K T} {i : Nat} (hi : i < a.size) (p : KeyPair K T) {j : Nat} :
    (a.store i p).Occupied j ↔ j = i ∧ p.key ≠ 0 ∨ j ≠ i ∧ a.Occupied j := by
  by_cases hj : j = i
  · subst hj
    simp [Occupied, hi]
  · simp [Occupied, hj]

theorem occupied_erase {a : KeyArray K T} {i : Nat} (hi : i < a.size) {j : Nat} :
    (a.erase i).Occupied j ↔ j ≠ i ∧ a.Occupied j := by
  rw [erase, occupied_store hi]
  simp

theorem not_occupied_clear (a : KeyArray K T) (i : Nat) : ¬a.clear.Occupied i := by
  rw [clear_eq]
  rintro ⟨hi, hkey⟩
  simp only [if_pos (show i < a.size from hi)] at hkey
  exact hkey rfl

end Occupied

variable [DecidableEq K] [Zero K]

/-- The index is in range, and its slot is not empty. -/
def Live (a : KeyArray K T) (i : Int) : Prop := 0 ≤ i ∧ i < a.size ∧ a.isEmptyAt i = false

instance (a : KeyArray K T) (i : Int) : Decidable (a.Live i) := inferInstanceAs (Decidable (_ ∧ _))

theorem live_iff {a : KeyArray K T} {i : Int} : a.Live i ↔ 0 ≤ i ∧ a.Occupied i.toNat := by
  unfold Live
  apply and_congr_right
  intro h0
  have hin : i < a.size ↔ i.toNat < a.size := by omega
  rw [hin, Occupied]
  apply and_congr_right
  intro hlt
  rw [isEmptyAt, if_neg (by omega), decide_eq_false_iff_not]

/-- The array with marked values, what was put into each slot last, the number of calls, and what
these got. -/
structure Slotted (K T : Type) where
  arr : KeyArray K (T × Nat)
  placed : Nat → Option (T × Nat)
  calls : Nat
  delivered : List (T × Nat)

/-- Calls by key and by index. -/
inductive SlotOp (K T : Type) [Zero K] where
  | put (key : Key K) (val : T)
  | get (key : Key K)
  | getAt (i : Int)
  | remove (key : Key K)
  | removeAt (i : Int)
  | clear

namespace Slotted

/-- The state behind a call that leaves an array and may have got a value. -/
def after (s : Slotted K T) (arr : KeyArray K (T × Nat)) (got : Option (T × Nat)) : Slotted K T :=
  { s with arr := arr, calls := s.calls + 1, delivered := s.delivered ++ got.toList }

/-- A call. -/
def step (s : Slotted K T) : SlotOp K T → Slotted K T
  | .put key val =>
    let r := s.arr.put key.1 (val, s.calls)
    { s.after r.2 none with
      placed := if 0 ≤ r.1 then Function.update s.placed r.1.toNat (some (val, s.calls))
        else s.placed }
  | .get key => s.after (s.arr.get key.1).2 (s.arr.get key.1).1
  | .getAt i => s.after (s.arr.getAt i).2 (s.arr.getAt i).1
  | .remove key => s.after (s.arr.remove key.1).2 none
  | .removeAt i => s.after (s.arr.removeAt i).2 none
  | .clear => s.after s.arr.clear none

/-- An array just constructed. -/
def start (mem : Nat → KeyPair K (T × Nat)) (cap : Nat) : Slotted K T :=
  { arr := create mem cap, placed := fun _ ↦ none, calls := 0, delivered := [] }

/-- What a call by index reports of its slot. -/
def Reports (s : Slotted K T) : SlotOp K T → Prop
  | .getAt i => ((s.arr.getAt i).1.isSome ↔ s.arr.Live i) ∧
    (s.arr.Live i → (s.arr.getAt i).1 = s.placed i.toNat)
  | .removeAt i => (s.arr.removeAt i).1 = true ↔ s.arr.Live i
  | _ => True

/-- A call that reports its slot, stays inside the array, and gets nothing that was got before. -/
structure Keeps (s : Slotted K T) (op : SlotOp K T) : Prop where
  reports : s.Reports op
  inside : (s.step op).arr.stray = false
  once : ((s.step op).delivered.map Prod.snd).Nodup

/-- A call whose index is that of a slot in use, or one that it refuses. -/
def Careful (s : Slotted K T) : SlotOp K T → Prop
  | .getAt i => i < 0 ∨ s.arr.Live i
  | .removeAt i => i < 0 ∨ s.arr.size ≤ i ∨ s.arr.Live i
  | _ => True

/-- Every value in use is the one that was put there, and it was not got yet. -/
structure Marked (s : Slotted K T) : Prop where
  near : s.arr.Near
  inside : s.arr.stray = false
  placed_eq : ∀ i, s.arr.Occupied i → s.placed i = some (s.arr.mem i).val
  slot_lt : ∀ i, s.arr.Occupied i → (s.arr.mem i).val.2 < s.calls
  slot_inj : ∀ i j, s.arr.Occupied i → s.arr.Occupied j →
    (s.arr.mem i).val.2 = (s.arr.mem j).val.2 → i = j
  slot_new : ∀ i, s.arr.Occupied i → (s.arr.mem i).val.2 ∉ s.delivered.map Prod.snd
  got_lt : ∀ n ∈ s.delivered.map Prod.snd, n < s.calls
  got_once : (s.delivered.map Prod.snd).Nodup

variable {s : Slotted K T}

omit [DecidableEq K] in
/-- Slots may be freed, and what one of them held got. -/
theorem Marked.shrink (h : s.Marked) {a : KeyArray K (T × Nat)} (hnear : a.Near)
    (hin : a.stray = false)
    (hsub : ∀ j, a.Occupied j → s.arr.Occupied j ∧ (a.mem j).val = (s.arr.mem j).val)
    {got : Option (T × Nat)}
    (hgot : ∀ v, got = some v → ∃ i, s.arr.Occupied i ∧ ¬a.Occupied i ∧ v = (s.arr.mem i).val) :
    (s.after a got).Marked := by
  have hnew : ∀ n ∈ got.toList.map Prod.snd, ∃ k, s.arr.Occupied k ∧ ¬a.Occupied k ∧
      n = (s.arr.mem k).val.2 := by
    intro n hn
    simp only [List.mem_map, Option.mem_toList] at hn
    rcases hn with ⟨v, hv, rfl⟩
    rcases hgot v hv with ⟨k, hk, hfree, rfl⟩
    exact ⟨k, hk, hfree, rfl⟩
  have hmarks : (s.after a got).delivered.map Prod.snd =
      s.delivered.map Prod.snd ++ got.toList.map Prod.snd := List.map_append
  constructor
  · exact hnear
  · exact hin
  · intro i hi
    show s.placed i = some (a.mem i).val
    rw [(hsub i hi).2]
    exact h.placed_eq i (hsub i hi).1
  · intro i hi
    show (a.mem i).val.2 < s.calls + 1
    rw [(hsub i hi).2]
    exact Nat.lt_succ_of_lt (h.slot_lt i (hsub i hi).1)
  · intro i j hi hj he
    change (a.mem i).val.2 = (a.mem j).val.2 at he
    rw [(hsub i hi).2, (hsub j hj).2] at he
    exact h.slot_inj i j (hsub i hi).1 (hsub j hj).1 he
  · intro i hi
    show (a.mem i).val.2 ∉ _
    rw [hmarks, (hsub i hi).2, List.mem_append, not_or]
    refine ⟨h.slot_new i (hsub i hi).1, ?_⟩
    intro hmem
    rcases hnew _ hmem with ⟨k, hk, hfree, he⟩
    exact hfree (h.slot_inj i k (hsub i hi).1 hk he ▸ hi)
  · intro n hn
    rw [hmarks, List.mem_append] at hn
    rcases hn with hn | hn
    · exact Nat.lt_succ_of_lt (h.got_lt n hn)
    · rcases hnew n hn with ⟨k, hk, -, rfl⟩
      exact Nat.lt_succ_of_lt (h.slot_lt k hk)
  · rw [hmarks, List.nodup_append]
    refine ⟨h.got_once, ?_, ?_⟩
    · cases got <;> simp
    · rintro n hn m hm rfl
      rcases hnew n hm with ⟨k, hk, -, rfl⟩
      exact h.slot_new k hk hn

omit [DecidableEq K] in
/-- A call that does nothing. -/
theorem Marked.idle (h : s.Marked) : (s.after s.arr none).Marked :=
  h.shrink h.near h.inside (fun _ hj ↦ ⟨hj, rfl⟩) (by simp)

omit [DecidableEq K] in
/-- A slot in use is freed, be it for its value or not. -/
theorem Marked.erase (h : s.Marked) {i : Nat} (hi : s.arr.Occupied i) {got : Option (T × Nat)}
    (hgot : ∀ v, got = some v → v = (s.arr.mem i).val) : (s.after (s.arr.erase i) got).Marked := by
  apply h.shrink (near_erase h.near i) ((stray_store _ _ _).mpr ⟨h.inside, hi.1⟩)
  · intro j hj
    rcases (occupied_erase hi.1).mp hj with ⟨hne, hj⟩
    refine ⟨hj, ?_⟩
    rw [KeyArray.erase, mem_store, Function.update_of_ne hne]
  · intro v hv
    refine ⟨i, hi, ?_, hgot v hv⟩
    rw [occupied_erase hi.1]
    exact fun hf ↦ hf.1 rfl

omit [DecidableEq K] in
theorem Marked.clear (h : s.Marked) : (s.after s.arr.clear none).Marked := by
  apply h.shrink (near_clear s.arr)
  · rw [clear_eq]
    exact h.inside
  · intro j hj
    exact absurd hj (not_occupied_clear s.arr j)
  · simp

omit [DecidableEq K] in
/-- A free slot takes a value with a new mark. -/
theorem Marked.store (h : s.Marked) {key : K} (hk : key ≠ 0) (val : T) {i : Nat}
    (hlt : i < 2 ^ 31) (hi : s.arr.HasAt 0 i) :
    Marked { s.after (s.arr.store i { key, val := (val, s.calls) }) none with
      placed := Function.update s.placed i (some (val, s.calls)) } := by
  have hocc : ∀ j, (s.arr.store i { key, val := (val, s.calls) }).Occupied j ↔
      j = i ∨ j ≠ i ∧ s.arr.Occupied j := by
    intro j
    rw [occupied_store hi.1]
    simp [hk]
  have hself : ((s.arr.store i { key, val := (val, s.calls) }).mem i).val = (val, s.calls) := by
    simp
  have hother : ∀ j, j ≠ i →
      (s.arr.store i { key, val := (val, s.calls) }).mem j = s.arr.mem j := by
    intro j hj
    rw [mem_store, Function.update_of_ne hj]
  constructor
  · exact near_store h.near hlt _
  · exact (stray_store _ _ _).mpr ⟨h.inside, hi.1⟩
  · intro j hj
    simp only [after] at hj ⊢
    rcases (hocc j).mp hj with rfl | ⟨hne, hj⟩
    · rw [hself, Function.update_self]
    · rw [hother j hne, Function.update_of_ne hne]
      exact h.placed_eq j hj
  · intro j hj
    simp only [after] at hj ⊢
    rcases (hocc j).mp hj with rfl | ⟨hne, hj⟩
    · rw [hself]
      exact Nat.lt_succ_self _
    · rw [hother j hne]
      exact Nat.lt_succ_of_lt (h.slot_lt j hj)
  · intro j k hj hk' he
    simp only [after] at hj hk' he
    rcases (hocc j).mp hj with rfl | ⟨hnej, hold⟩
    · rcases (hocc k).mp hk' with rfl | ⟨hnek, hold'⟩
      · rfl
      · rw [hself, hother k hnek] at he
        exact absurd he.symm (Nat.ne_of_lt (h.slot_lt k hold'))
    · rcases (hocc k).mp hk' with rfl | ⟨hnek, hold'⟩
      · rw [hself, hother j hnej] at he
        exact absurd he (Nat.ne_of_lt (h.slot_lt j hold))
      · rw [hother j hnej, hother k hnek] at he
        exact h.slot_inj j k hold hold' he
  · intro j hj
    simp only [after, Option.toList_none, List.append_nil] at hj ⊢
    rcases (hocc j).mp hj with rfl | ⟨hne, hj⟩
    · rw [hself]
      exact fun hn ↦ Nat.lt_irrefl _ (h.got_lt _ hn)
    · rw [hother j hne]
      exact h.slot_new j hj
  · intro n hn
    simp only [after, Option.toList_none, List.append_nil] at hn
    exact Nat.lt_succ_of_lt (h.got_lt n hn)
  · simpa [after] using h.got_once

/-- A careful call keeps the marks. -/
theorem Marked.step (h : s.Marked) {op : SlotOp K T} (hc : s.Careful op) :
    (s.step op).Marked := by
  cases op with
  | put key val =>
    simp only [Slotted.step]
    rcases h.near.put_cases key.1 (val, s.calls) with ⟨i, hp, hlt, hi⟩ | ⟨r, hr, hp, -⟩
    · rw [hp, if_pos (Int.natCast_nonneg i)]
      exact h.store key.2 val hlt hi
    · rw [hp, if_neg (Int.not_le.mpr hr)]
      exact h.idle
  | get key =>
    simp only [Slotted.step]
    rcases h.near.get_cases key.2 with ⟨i, hi, hg⟩ | ⟨-, hg⟩
    · rw [hg]
      exact h.erase ⟨hi.1, by rw [hi.2]; exact key.2⟩ (by simp)
    · rw [hg]
      exact h.idle
  | getAt i =>
    simp only [Slotted.step, getAt]
    rcases hc with hneg | hlive
    · rw [if_neg (by omega)]
      exact h.idle
    · rw [if_pos hlive.1]
      exact h.erase (live_iff.mp hlive).2 (by simp)
  | remove key =>
    simp only [Slotted.step]
    rcases h.near.remove_cases key.2 with ⟨i, hi, hg⟩ | ⟨-, hg⟩
    · rw [hg]
      exact h.erase ⟨hi.1, by rw [hi.2]; exact key.2⟩ (by simp)
    · rw [hg]
      exact h.idle
  | removeAt i =>
    simp only [Slotted.step, removeAt]
    split
    · next hin =>
      rcases hc with hneg | hout | hlive
      · omega
      · omega
      · exact h.erase (live_iff.mp hlive).2 (by simp)
    · exact h.idle
  | clear => exact h.clear

/-- While the marks are kept, a call keeps to the promises exactly if it is careful. -/
theorem Marked.keeps_iff (h : s.Marked) (op : SlotOp K T) : s.Keeps op ↔ s.Careful op := by
  constructor
  · intro hk
    have hr := hk.reports
    cases op with
    | getAt i =>
      by_cases h0 : 0 ≤ i
      · right
        apply hr.1.mp
        rw [getAt, if_pos h0]
        rfl
      · left
        omega
    | removeAt i =>
      rw [Careful]
      by_cases hin : 0 ≤ i ∧ i.toNat < s.arr.size
      · right
        right
        apply hr.mp
        rw [removeAt, if_pos hin]
      · omega
    | _ => trivial
  · intro hc
    have hm := h.step hc
    refine ⟨?_, hm.inside, hm.got_once⟩
    cases op with
    | getAt i =>
      rcases hc with hneg | hlive
      · have hn : ¬s.arr.Live i := fun hl ↦ by have h0 := hl.1; omega
        rw [Reports, getAt, if_neg (by omega)]
        exact ⟨iff_of_false Bool.false_ne_true hn, fun hl ↦ absurd hl hn⟩
      · rw [Reports, getAt, if_pos hlive.1]
        exact ⟨iff_of_true rfl hlive,
          fun _ ↦ (h.placed_eq i.toNat (live_iff.mp hlive).2).symm⟩
    | removeAt i =>
      rw [Reports, removeAt]
      split
      · next hin =>
        apply iff_of_true rfl
        rcases hc with hneg | hout | hlive
        · omega
        · omega
        · exact hlive
      · next hout =>
        apply iff_of_false Bool.false_ne_true
        intro hlive
        rcases live_iff.mp hlive with ⟨h0, hocc⟩
        exact hout ⟨h0, hocc.1⟩
    | _ => trivial

/-- The array and its history as a machine. -/
def machine (mem : Nat → KeyPair K (T × Nat)) (cap : Nat) :
    Machine (Slotted K T) (SlotOp K T) where
  init s := s = start mem cap
  step s op := some (s.step op)

omit [DecidableEq K] in
theorem marked_start (mem : Nat → KeyPair K (T × Nat)) (cap : Nat) : (start mem cap).Marked := by
  have hn : ∀ i, ¬(start mem cap).arr.Occupied i := not_occupied_clear _
  constructor
  · exact near_clear _
  · show (clear { mem, size := cap, stray := false } : KeyArray K (T × Nat)).stray = false
    rw [clear_eq]
  · exact fun i hi ↦ absurd hi (hn i)
  · exact fun i hi ↦ absurd hi (hn i)
  · exact fun i _ hi ↦ absurd hi (hn i)
  · exact fun i hi ↦ absurd hi (hn i)
  · exact fun n hn ↦ absurd hn List.not_mem_nil
  · exact List.nodup_nil

/-- Along every sequence of calls on an array just constructed the promises are kept exactly if each
index is that of a slot in use, or one that is refused. -/
theorem slotted_keeps_iff (mem : Nat → KeyPair K (T × Nat)) (cap : Nat)
    (ops : List (SlotOp K T)) :
    (machine mem cap).Along Keeps (start mem cap) ops ↔
      (machine mem cap).Along Careful (start mem cap) ops := by
  apply Machine.along_congr (I := Marked) (fun _ op hs ↦ hs.keeps_iff op) _ (marked_start mem cap)
  rintro s op _ hs hc ⟨⟩
  exact hs.step hc

/-- A slot that nothing was put into reports a value. -/
theorem slotted_not_keeps : ¬∀ (cap : Nat) (ops : List (SlotOp Nat Nat)),
    (machine (fun _ ↦ ⟨0, 0, 0⟩) cap).Along Keeps (start (fun _ ↦ ⟨0, 0, 0⟩) cap) ops := by
  intro h
  have hk := (h 2 [.getAt 0]).1.reports.1
  exact absurd (hk.mp rfl) (by decide)

end Slotted
end KeyArray
end CtrlrFx.Data
