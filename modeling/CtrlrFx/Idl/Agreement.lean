import CtrlrFx.Idl.Names

/-!
# Agreement of stubs and skeletons

Whether the stubs and the skeleton that `tools/cfxidl/Iface.cpp` writes for an interface talk about
the same values and the same functions, as C++ understands them.
-/

namespace CtrlrFx.Idl.Iface

variable {i : Iface}

/-- Stub and skeleton of an interface agree: they can be compiled, and then on the values of each
command and of each reply, on whether there is a reply, and on the number of each command; and
numbers of no command are rejected, without a look outside of the table. -/
structure Agrees (i : Iface) : Prop where
  classes : i.Classes
  named : ∀ f ∈ i.funcs, f.Named i
  command : ∀ f ∈ i.funcs, ∃ vs, values (f.createStub.encode.getD []) = some vs ∧
    values (f.createHandler.decode.getD []) = some vs
  reply : ∀ f ∈ i.funcs, (f.createStub.decode = none ∧ f.createHandler.encode = none) ∨
    ∃ ds es vs, f.createStub.decode = some ds ∧ f.createHandler.encode = some es ∧
      values ds = some vs ∧ values es = some vs
  selects : ∀ f ∈ i.funcs, ∃ op, i.sent f = some op ∧
    i.invoke op = some (.handled f.createHandler)
  rejects : ∀ op, i.funcs.length ≤ op → i.invoke op = some .rejected

/-- Values agree whatever the parameters and results are. -/
theorem reply_agrees (f : Func) :
    (f.createStub.decode = none ∧ f.createHandler.encode = none) ∨
      ∃ ds es vs, f.createStub.decode = some ds ∧ f.createHandler.encode = some es ∧
        values ds = some vs ∧ values es = some vs := by
  rcases f.values_stub_decode with ⟨hd, hv⟩ | ⟨ds, hd, hv, hds⟩
  · rcases f.values_handler_encode with ⟨he, -⟩ | ⟨es, -, hv', -⟩
    · exact .inl ⟨hd, he⟩
    · exact absurd hv hv'
  · rcases f.values_handler_encode with ⟨-, hv'⟩ | ⟨es, he, -, hes⟩
    · exact absurd hv' hv
    · exact .inr ⟨ds, es, f.outs, hd, he, hds, hes⟩

/-- Functions whose commands have the same number are one function. -/
theorem length_le_of_selects (h : i.Clear) (hs : ∀ f ∈ i.funcs, ∃ op, i.sent f = some op ∧
    i.invoke op = some (.handled f.createHandler)) : i.funcs.length ≤ 2 ^ 32 := by
  obtain ⟨hne, hd, hn⟩ := h.classes.consts
  by_contra hlt
  -- the first function that does not fit gets the number of the first of all
  have hk : 2 ^ 32 < i.funcs.length := Nat.not_le.mp hlt
  have h0 : 0 < i.funcs.length := Nat.lt_of_le_of_lt (Nat.zero_le _) hk
  obtain ⟨op, hop, hinv⟩ := hs _ (List.getElem_mem hk)
  rw [h.sent_getElem hk, Nat.mod_self, Option.some_inj] at hop
  rw [← hop, invoke_of_lt hne hd hn h0, Option.some_inj, Invoked.handled.injEq] at hinv
  have hname : i.funcs[0].name = i.funcs[2 ^ 32].name :=
    (String.append_left_inj "_cmd").mp (congrArg Handler.name hinv)
  have h0' : 0 < (i.funcs.map Func.cmdConstName).length := by rwa [List.length_map]
  have hk' : 2 ^ 32 < (i.funcs.map Func.cmdConstName).length := by rwa [List.length_map]
  have hconst : (i.funcs.map Func.cmdConstName)[0] = (i.funcs.map Func.cmdConstName)[2 ^ 32] := by
    rw [List.getElem_map, List.getElem_map, Func.cmdConstName, hname, Func.cmdConstName]
  exact absurd (hd.getElem_inj_iff.mp hconst) (by decide)

/-- Stub and skeleton of an interface agree exactly if its names and those that the compiler writes
do not get in each other's way, and there is an `op_t` for each function. -/
theorem agrees_iff (i : Iface) : i.Agrees ↔ i.Clear ∧ i.funcs.length ≤ 2 ^ 32 := by
  constructor
  · intro h
    have hc : i.Clear := ⟨h.classes, fun f hf ↦ (Func.named_iff h.classes hf).mp (h.named f hf)⟩
    exact ⟨hc, length_le_of_selects hc h.selects⟩
  · rintro ⟨h, hlen⟩
    rcases h.classes.consts with ⟨hfs, hd, hn⟩
    constructor
    · exact h.classes
    · intro f hf
      exact (Func.named_iff h.classes hf).mpr (h.fresh f hf)
    · intro f _
      exact ⟨f.ins, f.values_stub_encode, f.values_handler_decode⟩
    · intro f _
      exact reply_agrees f
    · intro f hf
      rcases List.getElem_of_mem hf with ⟨k, hk, rfl⟩
      refine ⟨k, ?_, invoke_of_lt hfs hd hn hk⟩
      rw [h.sent_getElem hk, Nat.mod_eq_of_lt (Nat.lt_of_lt_of_le hk hlen)]
    · intro op hop
      exact invoke_of_ge hfs hd hn hop

/-- Functions of the interface that comes with the compiler; `tools/cfxidl/test.cidl`. -/
theorem agrees_myIface : Agrees
    { name := "MyIface"
      funcs := [
        { type := "void", name := "test", params := [] },
        { type := "void", name := "change_this",
          params := [{ type := "int", name := "n", dir := .INOUT }] },
        { type := "Matrix", name := "madd",
          params := [{ type := "Matrix", name := "m1", dir := .IN },
            { type := "Matrix", name := "m2", dir := .IN }] }] } :=
  (agrees_iff _).mpr ⟨⟨by decide, by decide⟩, by decide⟩

/-- A parameter that is called like the constant of its function: the stub sends its value for the
number of the command. -/
theorem hidden_disagrees : ¬∀ i : Iface, (i.funcs.map Func.cmdConstName).Nodup → i.Agrees := by
  intro h
  obtain ⟨op, hop, -⟩ := (h
    { name := "Motor"
      funcs := [{ type := "void", name := "move",
                  params := [{ type := "int", name := "MOVE_CMD", dir := .IN }] }] }
    (by decide)).selects _ List.mem_cons_self
  rw [sent, if_pos (by decide)] at hop
  cases hop

end CtrlrFx.Idl.Iface
