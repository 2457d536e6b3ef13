import CtrlrFx.Idl.Iface
import CtrlrFx.Idl.Lexer

/-!
# Constants of the commands

`cmd_const_name` of `tools/cfxidl/Func.cpp` writes the name of a function in upper case, and
`create_iface` of `tools/cfxidl/Iface.cpp` puts the constant `N_CMD` behind those of the functions.
The scanner tells names apart by their case.
-/

namespace CtrlrFx.Idl

/-! ### Letters -/

theorem toNat_toUpper (c : Char) :
    c.toUpper.toNat = if 97 ≤ c.toNat ∧ c.toNat ≤ 122 then c.toNat - 32 else c.toNat := by
  have hle : 'a'.val ≤ c.val ∧ c.val ≤ 'z'.val ↔ 97 ≤ c.toNat ∧ c.toNat ≤ 122 := Iff.rfl
  have hk : ('A'.val - 'a'.val).toNat = 4294967264 := rfl
  unfold Char.toUpper
  by_cases h : 'a'.val ≤ c.val ∧ c.val ≤ 'z'.val
  · rw [dif_pos h, if_pos (hle.mp h)]
    show (c.val + ('A'.val - 'a'.val)).toNat = c.val.toNat - 32
    have hc : 97 ≤ c.val.toNat ∧ c.val.toNat ≤ 122 := h
    rw [UInt32.toNat_add, hk]
    omega
  · rw [dif_neg h, if_neg (hle.not.mp h)]

theorem toNat_toLower (c : Char) :
    c.toLower.toNat = if 65 ≤ c.toNat ∧ c.toNat ≤ 90 then c.toNat + 32 else c.toNat := by
  have hle : c.val ≥ 'A'.val ∧ c.val ≤ 'Z'.val ↔ 65 ≤ c.toNat ∧ c.toNat ≤ 90 := Iff.rfl
  have hk : ('a'.val - 'A'.val).toNat = 32 := rfl
  unfold Char.toLower
  by_cases h : c.val ≥ 'A'.val ∧ c.val ≤ 'Z'.val
  · rw [dif_pos h, if_pos (hle.mp h)]
    show (c.val + ('a'.val - 'A'.val)).toNat = c.val.toNat + 32
    have hc : 65 ≤ c.val.toNat ∧ c.val.toNat ≤ 90 := h
    rw [UInt32.toNat_add, hk]
    omega
  · rw [dif_neg h, if_neg (hle.not.mp h)]

/-- Upper case tells apart what lower case does. -/
theorem toUpper_eq_iff (c d : Char) : c.toUpper = d.toUpper ↔ c.toLower = d.toLower := by
  rw [← Char.toNat_inj, ← Char.toNat_inj, toNat_toUpper, toNat_toUpper, toNat_toLower,
    toNat_toLower]
  split_ifs <;> omega

/-! ### Constants of functions -/

/-- A name with the case of its letters ignored. -/
def caseless (name : String) : List Char := name.toList.map Char.toLower

theorem map_toUpper_eq_iff (cs ds : List Char) :
    cs.map Char.toUpper = ds.map Char.toUpper ↔ cs.map Char.toLower = ds.map Char.toLower := by
  induction cs generalizing ds with
  | nil => cases ds <;> simp
  | cons c cs ih =>
    cases ds with
    | nil => simp
    | cons d ds => simp only [List.map_cons, List.cons.injEq, toUpper_eq_iff, ih]

/-- Two functions have one constant exactly if their names differ in case only. -/
theorem Func.cmdConstName_inj (f g : Func) :
    f.cmdConstName = g.cmdConstName ↔ caseless f.name = caseless g.name := by
  rw [Func.cmdConstName, Func.cmdConstName, String.append_left_inj, String.ofList_inj]
  exact map_toUpper_eq_iff _ _

theorem nodup_cmdConstName (fs : List Func) :
    (fs.map Func.cmdConstName).Nodup ↔ (fs.map fun f ↦ caseless f.name).Nodup := by
  rw [List.Nodup, List.Nodup, List.pairwise_map, List.pairwise_map]
  apply List.Pairwise.iff
  intro f g
  exact not_congr (f.cmdConstName_inj g)

namespace Iface

/-- The constants of an interface tell its functions apart: all that are declared are distinct,
no function has that of their number, and the one that a stub puts into its command denotes the
position of its function. -/
structure Unambiguous (i : Iface) : Prop where
  distinct : i.enumerators.Nodup
  apart : ∀ f ∈ i.funcs, f.cmdConstName ≠ "N_CMD"
  denotes : ∀ k (hk : k < i.funcs.length), i.enumValue i.funcs[k].createStub.cmd = some k

theorem nodup_of_enumerators {i : Iface} (h : i.enumerators.Nodup) :
    (i.funcs.map Func.cmdConstName).Nodup := by
  by_cases hfs : i.funcs = []
  · rw [hfs]
    exact List.nodup_nil
  · rw [enumerators, if_neg hfs] at h
    exact h.of_append_left

/-- The constants are unambiguous exactly if the names of the functions are distinct without their
case and none is `n` or `N`. -/
theorem unambiguous_iff (i : Iface) : i.Unambiguous ↔
    (i.funcs.map fun f ↦ caseless f.name).Nodup ∧ ∀ f ∈ i.funcs, f.name ≠ "n" ∧ f.name ≠ "N" := by
  have hapart : ∀ f : Func, f.cmdConstName ≠ "N_CMD" ↔ f.name ≠ "n" ∧ f.name ≠ "N" := by
    intro f
    rw [ne_eq, f.cmdConstName_eq_iff, not_or]
  rw [← nodup_cmdConstName]
  constructor
  · intro h
    exact ⟨nodup_of_enumerators h.distinct, fun f hf ↦ (hapart f).mp (h.apart f hf)⟩
  · rintro ⟨hd, hn⟩
    have hne : ∀ f ∈ i.funcs, f.cmdConstName ≠ "N_CMD" := fun f hf ↦ (hapart f).mpr (hn f hf)
    have hcount : "N_CMD" ∉ i.funcs.map Func.cmdConstName := by
      intro hmem
      obtain ⟨f, hf, hc⟩ := List.mem_map.mp hmem
      exact hne f hf hc
    constructor
    · by_cases hfs : i.funcs = []
      · rw [enumerators, if_pos hfs]
        exact List.nodup_nil
      · exact (enumValue_count hfs hd hcount).2
    · exact hne
    · intro k hk
      have hfs : i.funcs ≠ [] := List.ne_nil_of_length_pos (by omega)
      exact enumValue_cmd hfs hd hcount hk

/-- Names that differ in case are two names to the scanner, and have one constant. -/
theorem not_unambiguous : ¬∀ i : Iface, (∀ f ∈ i.funcs, (Token.NAME f.name).Written) →
    (i.funcs.map fun f ↦ f.name).Nodup → i.Unambiguous := by
  intro h
  have hu := h { name := "I", funcs := [{ type := "void", name := "foo", params := [] },
    { type := "void", name := "Foo", params := [] }] } (by decide) (by decide)
  exact absurd hu.distinct (by decide)

end Iface
end CtrlrFx.Idl
