import CtrlrFx.Data.Payload
import CtrlrFx.DistObj.Exchange
import CtrlrFx.Idl.Target

/-!
# Calls on generated stubs

For every interface the stubs and the skeleton that the compiler writes, joined by a client and a
server, do what direct calls of the implementation do.
-/

namespace CtrlrFx.Idl
open Base Data DistObj Io

/-! ### Variables -/

namespace Vars

theorem setAll_of_notMem {x : String} {xs : List String} (h : x ∉ xs) (ρ : Vars)
    (vs : List Scalar) : ρ.setAll xs vs x = ρ x := by
  induction xs generalizing ρ vs with
  | nil => rfl
  | cons y xs ih =>
    cases vs with
    | nil => rfl
    | cons v vs =>
      rw [setAll, ih (fun hx ↦ h (List.mem_cons_of_mem y hx)),
        Function.update_of_ne (List.ne_of_not_mem_cons h)]

/-- Distinct variables hold what was stored into them. -/
theorem map_setAll {xs : List String} (h : xs.Nodup) (ρ : Vars) {vs : List Scalar}
    (hl : xs.length = vs.length) : xs.map (ρ.setAll xs vs) = vs := by
  induction xs generalizing ρ vs with
  | nil => exact (List.eq_nil_of_length_eq_zero hl.symm).symm
  | cons x xs ih =>
    cases vs with
    | nil => cases hl
    | cons v vs =>
      rw [List.nodup_cons] at h
      rw [List.map_cons, setAll, ih h.2 _ (Nat.succ.inj hl), setAll_of_notMem h.1,
        Function.update_self]

theorem setAll_append {xs ys : List String} {vs ws : List Scalar} (ρ : Vars)
    (h : xs.length = vs.length) : ρ.setAll (xs ++ ys) (vs ++ ws) =
      (ρ.setAll xs vs).setAll ys ws := by
  induction xs generalizing ρ vs with
  | nil =>
    cases List.eq_nil_of_length_eq_zero h.symm
    rfl
  | cons x xs ih =>
    cases vs with
    | nil => cases h
    | cons v vs => exact ih _ (Nat.succ.inj h)

end Vars

/-- Values of one type. -/
theorem Types.Has.sameType {types : Types} {T : String} {v w : Scalar} (hv : types.Has T v)
    (hw : types.Has T w) : Scalar.SameType v w := by
  rcases hv with ⟨t, ht, hv⟩
  rcases hw with ⟨u, hu, hw⟩
  cases ht.symm.trans hu
  cases t <;> cases v <;> first | exact hv.elim | (cases w <;> first | exact hw.elim | trivial)

/-- The size of a type is that of its values. -/
theorem Types.Has.size_eq {types : Types} {T : String} {v : Scalar} (h : types.Has T v) :
    v.size = types.size T := by
  rcases h with ⟨t, ht, hv⟩
  rw [Types.size, ht]
  cases t <;> cases v <;> first | exact hv.elim | rfl

/-! ### Functions -/

namespace Func

/-- Names of the values that a function takes. -/
def inNames (f : Func) : List String := f.ins.map Prod.fst

/-- Names of the values that a function gives. -/
def outNames (f : Func) : List String := f.outs.map Prod.fst

/-- Where the parameters of a command end that is encoded for the function. -/
def cmdEnd (types : Types) (f : Func) : Nat :=
  layoutEnd 12 (f.ins.map fun x ↦ types.size x.2.type)

/-- Where the results end that are encoded for the function. -/
def rspEnd (types : Types) (f : Func) : Nat :=
  layoutEnd 0 (f.outs.map fun x ↦ types.size x.2.type)

/-- Values of the parameters in order. -/
def args (f : Func) (ρ : Vars) : List Scalar := f.params.map fun p ↦ ρ p.name

/-- Every parameter holds a value of its type. -/
def Typed (types : Types) (f : Func) (ρ : Vars) : Prop :=
  ∀ p ∈ f.params, types.Has p.type (ρ p.name)

/-- A function that the compiler for C++ takes: its variables have different names, and their
types are known. -/
structure WellFormed (types : Types) (f : Func) : Prop where
  names : ("_ret" :: f.params.map (·.name)).Nodup
  params : ∀ p ∈ f.params, (types p.type).isSome
  ret : f.type ≠ "void" → (types f.type).isSome

/-- An outcome of the types that are declared. -/
structure Gives {σ : Type} (types : Types) (f : Func) (o : Outcome σ) : Prop where
  void : f.type = "void" → o.ret = none
  ret : f.type ≠ "void" → ∃ v, o.ret = some v ∧ types.Has f.type v
  outs : List.Forall₂ (fun p v ↦ types.Has p.type v)
    (f.params.filter fun p ↦ p.dir = .OUT ∨ p.dir = .INOUT) o.outs

/-- An implementation of the function: it gives values of the types that are declared, and what
is behind a pointer that is only for output is not looked at. -/
structure Implements {σ : Type} (types : Types) (f : Func) (m : Method σ) : Prop where
  gives : ∀ ρ s, f.Typed types ρ → f.Gives types (m (f.args ρ) s)
  reads : ∀ ρ ρ' s, f.Typed types ρ → f.Typed types ρ' → (∀ x ∈ f.inNames, ρ x = ρ' x) →
    m (f.args ρ) s = m (f.args ρ') s

variable {types : Types} {f : Func}

theorem inNames_eq (f : Func) :
    f.inNames = (f.params.filter fun p ↦ p.dir = .IN ∨ p.dir = .INOUT).map (·.name) := by
  rw [inNames, ins, List.map_map]
  rfl

theorem outNames_eq (f : Func) :
    f.outNames = f.pointers ++ if f.type ≠ "void" then ["_ret"] else [] := by
  rw [outNames, outs, List.map_append, List.map_map, pointers]
  split <;> rfl

theorem outs_of_nout (h : f.type = "void" ∧ f.nout = 0) : f.outs = [] := by
  have hnil := h.2
  rw [nout, List.countP_eq_length_filter] at hnil
  rw [outs, List.eq_nil_of_length_eq_zero hnil, if_neg (not_not.mpr h.1)]
  rfl

namespace WellFormed

theorem nodup_params (h : f.WellFormed types) : (f.params.map (·.name)).Nodup :=
  (List.nodup_cons.mp h.names).2

theorem ret_notMem (h : f.WellFormed types) : "_ret" ∉ f.params.map (·.name) :=
  (List.nodup_cons.mp h.names).1

theorem nodup_inNames (h : f.WellFormed types) : f.inNames.Nodup := by
  rw [inNames_eq]
  exact (List.filter_sublist.map _).nodup h.nodup_params

theorem nodup_pointers (h : f.WellFormed types) : f.pointers.Nodup :=
  (List.filter_sublist.map _).nodup h.nodup_params

theorem ret_notMem_pointers (h : f.WellFormed types) : "_ret" ∉ f.pointers := fun hm ↦
  h.ret_notMem ((List.filter_sublist.map _).subset hm)

theorem nodup_outNames (h : f.WellFormed types) : f.outNames.Nodup := by
  rw [outNames_eq]
  apply h.nodup_pointers.append
  · split
    · exact List.nodup_singleton _
    · exact List.nodup_nil
  · intro x hx hx'
    split at hx'
    · rw [List.mem_singleton.mp hx'] at hx
      exact h.ret_notMem_pointers hx
    · cases hx'

/-- Parameters that get values of their types are typed. -/
theorem typed_setAll (h : f.WellFormed types) (ρ : Vars) {vs : List Scalar}
    (hv : List.Forall₂ (fun p v ↦ types.Has p.type v) f.params vs) :
    f.Typed types (ρ.setAll (f.params.map (·.name)) vs) := by
  have hmap := Vars.map_setAll h.nodup_params ρ (by rw [List.length_map]; exact hv.length_eq)
  rw [List.map_map] at hmap
  rw [← hmap, List.forall₂_map_right_iff, List.forall₂_same] at hv
  exact hv

theorem args_setAll (h : f.WellFormed types) (ρ : Vars) {vs : List Scalar}
    (hl : f.params.length = vs.length) :
    f.args (ρ.setAll (f.params.map (·.name)) vs) = vs := by
  have hmap := Vars.map_setAll h.nodup_params ρ (by rw [List.length_map]; exact hl)
  rwa [List.map_map] at hmap

end WellFormed

/-- Values that are taken have the sizes of their types. -/
theorem Typed.sizes {ρ : Vars} (h : f.Typed types ρ) :
    (f.inNames.map ρ).map Scalar.size = f.ins.map fun x ↦ types.size x.2.type := by
  rw [inNames, ins, List.map_map, List.map_map, List.map_map, List.map_map]
  apply List.map_congr_left
  intro p hp
  exact (h p (List.mem_of_mem_filter hp)).size_eq

/-- What a function gives. -/
def results {σ : Type} (o : Outcome σ) : List Scalar := o.outs ++ o.ret.toList

namespace Gives

variable {σ : Type} {o : Outcome σ}

theorem results_typed (h : f.Gives types o) :
    List.Forall₂ (fun x v ↦ types.Has x.2.type v) f.outs (results o) := by
  rw [Func.outs, results]
  apply List.rel_append
  · rw [List.forall₂_map_left_iff]
    exact h.outs
  · by_cases hv : f.type = "void"
    · rw [if_neg (not_not.mpr hv), h.void hv]
      exact .nil
    · rcases h.ret hv with ⟨v, hr, hty⟩
      rw [if_pos hv, hr]
      exact .cons hty .nil

theorem length_results (h : f.Gives types o) : f.outNames.length = (results o).length := by
  rw [outNames, List.length_map]
  exact h.results_typed.length_eq

theorem length_outs (h : f.Gives types o) : f.pointers.length = o.outs.length := by
  rw [pointers, List.length_map]
  exact h.outs.length_eq

theorem sizes_results (h : f.Gives types o) :
    (results o).map Scalar.size = f.outs.map fun x ↦ types.size x.2.type := by
  have hr := h.results_typed
  generalize results o = vs at hr
  generalize f.outs = xs at hr
  induction hr with
  | nil => rfl
  | cons hv _ ih => rw [List.map_cons, List.map_cons, ih, hv.size_eq]

/-- What is stored for a function is what it gave. -/
theorem setAll_results (h : f.Gives types o) (hw : f.WellFormed types) (ρ : Vars) :
    f.pointers.map (ρ.setAll f.outNames (results o)) = o.outs ∧
      (f.type ≠ "void" → o.ret = some (ρ.setAll f.outNames (results o) "_ret")) := by
  have hmap := Vars.map_setAll hw.nodup_outNames ρ h.length_results
  rw [outNames_eq, List.map_append, results] at hmap
  rcases List.append_inj hmap (by rw [List.length_map]; exact h.length_outs) with ⟨hp, hr⟩
  rw [← outNames_eq] at hp hr
  refine ⟨hp, fun hv ↦ ?_⟩
  rcases h.ret hv with ⟨v, hret, -⟩
  have hv' : o.ret.toList = [v] := by
    rw [hret]
    rfl
  rw [if_pos hv] at hr
  exact hret.trans (congrArg List.head? (hv'.symm.trans hr.symm))

end Gives

/-! ### The statements that are written -/

theorem scalars_of_values {ops : List Operand} {xs : List (String × Decl)}
    (h : values ops = some xs) (hx : ∀ x ∈ xs, x.2.isPointer = false) :
    scalars ops = some (xs.map Prod.fst) := by
  induction ops generalizing xs with
  | nil =>
    cases h
    rfl
  | cons o ops ih =>
    rw [values, List.mapM_cons] at h
    cases ho : o.value with
    | none =>
      rw [ho] at h
      cases h
    | some y =>
      cases hs : ops.mapM Operand.value with
      | none =>
        rw [ho, hs] at h
        cases h
      | some ys =>
        rw [ho, hs] at h
        cases h
        have hy := hx y List.mem_cons_self
        have hys := ih hs fun x hm ↦ hx x (List.mem_cons_of_mem y hm)
        have hone : o.scalar = some y.1 := by
          rw [Operand.scalar, ho]
          dsimp only
          rw [hy]
          rfl
        rw [scalars] at hys
        rw [scalars, List.mapM_cons, hone, hys]
        rfl

theorem isPointer_ins {x : String × Decl} (h : x ∈ f.ins) : x.2.isPointer = false := by
  rw [ins, List.mem_map] at h
  rcases h with ⟨p, -, rfl⟩
  rfl

theorem isPointer_outs {x : String × Decl} (h : x ∈ f.outs) : x.2.isPointer = false := by
  rw [outs, List.mem_append, List.mem_map] at h
  rcases h with ⟨p, -, rfl⟩ | h
  · rfl
  · split at h
    · rw [List.mem_singleton.mp h]
      rfl
    · cases h

theorem scalars_stub_encode (f : Func) :
    scalars (f.createStub.encode.getD []) = some f.inNames :=
  scalars_of_values f.values_stub_encode fun _ ↦ isPointer_ins

theorem scalars_handler_decode (f : Func) :
    scalars (f.createHandler.decode.getD []) = some f.inNames :=
  scalars_of_values f.values_handler_decode fun _ ↦ isPointer_ins

theorem scalars_handler_encode (f : Func) :
    scalars (f.createHandler.encode.getD []) = some f.outNames := by
  rcases f.values_handler_encode with ⟨he, hv⟩ | ⟨ops, he, -, hv⟩
  · rw [he, outNames, outs_of_nout hv]
    rfl
  · rw [he]
    exact scalars_of_values hv fun _ ↦ isPointer_outs

/-- There is a reply just where the function gives something. -/
theorem stub_decode_cases (f : Func) :
    (f.createStub.decode = none ∧ f.outs = []) ∨
      ∃ ops, f.createStub.decode = some ops ∧ f.outs ≠ [] ∧ scalars ops = some f.outNames := by
  rcases f.values_stub_decode with ⟨hd, hv⟩ | ⟨ops, hd, hne, hv⟩
  · exact .inl ⟨hd, outs_of_nout hv⟩
  · refine .inr ⟨ops, hd, ?_, scalars_of_values hv fun _ ↦ isPointer_outs⟩
    intro hnil
    rw [outs, List.append_eq_nil_iff, List.map_eq_nil_iff] at hnil
    apply hne
    refine ⟨?_, ?_⟩
    · by_contra hvoid
      rw [if_pos hvoid] at hnil
      cases hnil.2
    · rw [nout, List.countP_eq_length_filter, hnil.1]
      rfl

/-- What the handler passes to the function, for each parameter. -/
def callArgs (f : Func) : List (String × Decl) :=
  f.params.map fun p ↦
    (p.name, if p.dir = .OUT ∨ p.dir = .INOUT then .pointer p.type else .plain p.type)

theorem values_handler_call (f : Func) : values f.createHandler.call = some f.callArgs := by
  rw [createHandler, callArgs]
  dsimp only
  induction f.params with
  | nil => rfl
  | cons p ps ih =>
    rw [List.map_cons, List.map_cons]
    refine values_cons ?_ ih
    split <;> rfl

/-- The pointers among these are the parameters for output. -/
theorem pointers_callArgs (f : Func) :
    (f.callArgs.filter fun x ↦ x.2.isPointer).map Prod.fst = f.pointers := by
  rw [callArgs, pointers]
  induction f.params with
  | nil => rfl
  | cons p ps ih =>
    rw [List.map_cons, List.filter_cons, List.filter_cons]
    by_cases hp : p.dir = .OUT ∨ p.dir = .INOUT
    · rw [if_pos hp, if_pos (decide_eq_true hp), List.map_cons, ← ih]
      rfl
    · have hd : ¬decide (p.dir = .OUT ∨ p.dir = .INOUT) = true := by simpa using hp
      rw [if_neg hp, if_neg hd, ← ih]
      rfl

theorem compile_handler {σ : Type} (e : Endian) (junk : Vars) (m : Method σ) (f : Func) :
    f.createHandler.compile e junk m = some
      (Handler.run e junk m f.inNames f.callArgs f.createHandler.ret f.outNames) := by
  rw [Handler.compile, scalars_handler_decode, values_handler_call, scalars_handler_encode]

end Func

/-- The handler that is invoked for the constant of a function is that function's. -/
theorem Iface.invokeCmd_of_lt {σ : Type} {i : Iface} (e : Endian) (junk : Vars)
    (impl : Func → Method σ) (hd : (i.funcs.map Func.cmdConstName).Nodup)
    (hn : "N_CMD" ∉ i.funcs.map Func.cmdConstName) {k : Nat} (hk : k < i.funcs.length)
    (hlt : i.funcs.length < 2 ^ 32) :
    i.invokeCmd e junk impl (UInt32.ofNat k) =
      some (Handler.run e junk (impl i.funcs[k]) i.funcs[k].inNames i.funcs[k].callArgs
        i.funcs[k].createHandler.ret i.funcs[k].outNames) := by
  have hne : i.funcs ≠ [] := List.ne_nil_of_length_pos (Nat.lt_of_le_of_lt (Nat.zero_le k) hk)
  have hnat : (UInt32.ofNat k).toNat = k := by
    rw [UInt32.toNat_ofNat']
    exact Nat.mod_eq_of_lt (by omega)
  -- constants that differ belong to names that differ
  have hfind : i.funcs.find? (fun f ↦ f.cmdFuncName == i.funcs[k].createHandler.name) =
      some i.funcs[k] := by
    have hname : i.funcs[k].createHandler.name = i.funcs[k].cmdFuncName := rfl
    rw [hname]
    obtain ⟨f, hf⟩ : ∃ f, i.funcs[k] = f := ⟨_, rfl⟩
    have hmem : f ∈ i.funcs := by
      rw [← hf]
      exact List.getElem_mem hk
    rw [hf]
    generalize i.funcs = fs at hd hmem
    induction fs with
    | nil => cases hmem
    | cons g fs ih =>
      rw [List.map_cons, List.nodup_cons] at hd
      rw [List.find?_cons]
      rcases List.mem_cons.mp hmem with rfl | hmem
      · rw [beq_self_eq_true]
      · have hne : (g.cmdFuncName == f.cmdFuncName) = false := by
          apply beq_false_of_ne
          intro heq
          have hname : g.name = f.name := (String.append_left_inj "_cmd").mp heq
          apply hd.1
          rw [Func.cmdConstName, hname]
          exact List.mem_map_of_mem hmem
        rw [hne]
        exact ih hd.2 hmem
  rw [invokeCmd, hnat, invoke_of_lt hne hd hn hk]
  dsimp only
  rw [hfind]
  exact Func.compile_handler e junk _ _

/-! ### Running them -/

namespace Func

variable {types : Types} {f : Func} {σ : Type} {m : Method σ}

/-- Variables that hold values of the types of what a function takes. -/
theorem sameType_ins {ρ ρ' : Vars} (h : f.Typed types ρ) (h' : f.Typed types ρ') :
    List.Forall₂ Scalar.SameType (f.inNames.map ρ) (f.inNames.map ρ') := by
  rw [List.forall₂_map_left_iff, List.forall₂_map_right_iff, List.forall₂_same, inNames_eq]
  intro x hx
  rcases List.mem_map.mp hx with ⟨p, hp, rfl⟩
  have hmem := List.mem_of_mem_filter hp
  exact (h p hmem).sameType (h' p hmem)

/-- Storing values into what a function takes leaves it typed. -/
theorem Typed.setAll_ins {ρ ρ' : Vars} (hw : f.WellFormed types) (h : f.Typed types ρ)
    (h' : f.Typed types ρ') : f.Typed types (ρ.setAll f.inNames (f.inNames.map ρ')) ∧
      ∀ x ∈ f.inNames, ρ.setAll f.inNames (f.inNames.map ρ') x = ρ' x := by
  have hlen : f.inNames.length = (f.inNames.map ρ').length := (List.length_map ..).symm
  have hmap := Vars.map_setAll hw.nodup_inNames ρ hlen
  have heq : ∀ x ∈ f.inNames, ρ.setAll f.inNames (f.inNames.map ρ') x = ρ' x :=
    List.map_inj_left.mp hmap
  refine ⟨?_, heq⟩
  intro p hp
  by_cases hx : p.name ∈ f.inNames
  · rw [heq _ hx]
    exact h' p hp
  · rw [Vars.setAll_of_notMem hx]
    exact h p hp

/-- A handler whose command holds the values of what the function takes calls the function with
them and puts what it gives. -/
theorem run_handler {e : Endian} {junk ρ : Vars} {b rb : Buffer UInt8} {s : σ}
    (hw : f.WellFormed types) (hm : f.Implements types m) (hj : f.Typed types junk)
    (ht : f.Typed types ρ) (hb : b.Valid) (hl : Scalar.Laid e b.pos (f.inNames.map ρ) b.unread)
    (hpos : b.pos = 12) (hcmd : f.cmdEnd types ≤ 2 ^ 31) (hrsp : f.rspEnd types ≤ rb.capacity)
    (hlt : f.rspEnd types ≤ 2 ^ 31) :
    ∃ r : Reply σ, Handler.run e junk m f.inNames f.callArgs f.createHandler.ret f.outNames
        { buf := b, good := true } { buf := rb.clear, good := true } s = r ∧ r.ret = 0 ∧
      r.objs = (m (f.args ρ) s).state ∧ r.rsp.buf.Valid ∧ r.rsp.buf.pos = f.rspEnd types ∧
      Scalar.Laid e 0 (results (m (f.args ρ) s)) r.rsp.buf.written := by
  have hsizes := ht.sizes
  obtain ⟨b', hget⟩ := Scalar.getAll_laid hb hl
    (by rw [hsizes, hpos]; exact hcmd) (sameType_ins hj ht)
  -- the function is called with the values that the stub was given
  obtain ⟨ρ₁, hρ₁⟩ : ∃ ρ₁, junk.setAll f.inNames (f.inNames.map ρ) = ρ₁ := ⟨_, rfl⟩
  rcases Typed.setAll_ins hw hj ht with ⟨htyped, hins⟩
  rw [hρ₁] at htyped hins
  have hcall : m (f.callArgs.map fun x ↦ ρ₁ x.1) s = m (f.args ρ) s := by
    have hargs : f.callArgs.map (fun x ↦ ρ₁ x.1) = f.args ρ₁ := by
      rw [callArgs, List.map_map]
      rfl
    rw [hargs]
    exact hm.reads ρ₁ ρ s htyped ht hins
  -- its results are in the variables that are encoded
  obtain ⟨o, ho⟩ : ∃ o, m (f.args ρ) s = o := ⟨_, rfl⟩
  have hgives := hm.gives ρ s ht
  rw [ho] at hgives
  have hlenp := hgives.length_outs
  have hres := hgives.sizes_results
  have hretNames : (f.createHandler.ret.map Var.name).toList =
      if f.type ≠ "void" then ["_ret"] else [] := by
    rw [createHandler]
    dsimp only
    split <;> rfl
  have hvals : f.outNames.map ((ρ₁.setAll f.pointers o.outs).setAll
      (f.createHandler.ret.map Var.name).toList o.ret.toList) = results o := by
    rw [← Vars.setAll_append _ hlenp, hretNames, ← outNames_eq]
    exact Vars.map_setAll hw.nodup_outNames _ hgives.length_results
  rw [ho] at hcall
  have hclear : Scalar.Writing rb.clear := ⟨Nat.zero_le _, rfl⟩
  have hz : rb.clear.pos = 0 := rfl
  have hroom : layoutEnd rb.clear.pos ((results o).map Scalar.size) ≤ rb.clear.capacity := by
    rw [hres, hz]
    exact hrsp
  obtain ⟨b'', bs, hput, hv, hend, hwr, hlaid⟩ := Scalar.putAll_laid (e := e) hclear hroom
    (by rw [hres, hz]; exact hlt)
  rw [Buffer.written_clear, List.nil_append] at hwr
  rw [hres, hz] at hend
  refine ⟨_, rfl, rfl, ?_, ?_⟩
  · simp only [Handler.run, hget, hρ₁, hcall, ho]
  · simp only [Handler.run, hget, hρ₁, hcall, pointers_callArgs, hvals, hput, hwr, ho]
    exact ⟨hv, hend, hlaid⟩

/-- Variables for what a function gives hold values of its types before it gives them. -/
theorem sameType_outs {o : Outcome σ} {ρ : Vars} (hw : f.WellFormed types)
    (ho : f.Gives types o) (h : f.Typed types ρ) {v : Scalar}
    (hv : f.type ≠ "void" → types.Has f.type v) :
    List.Forall₂ Scalar.SameType (f.outNames.map (Function.update ρ "_ret" v)) (results o) := by
  rw [outNames, List.map_map, List.forall₂_map_left_iff]
  refine (List.forall₂_and_left (p := (· ∈ f.outs)) _ _).mpr
    ⟨fun _ hx ↦ hx, ho.results_typed⟩ |>.imp ?_
  rintro x w ⟨hx, hty⟩
  refine Types.Has.sameType (T := x.2.type) ?_ hty
  rw [outs, List.mem_append, List.mem_map] at hx
  rcases hx with ⟨p, hp, rfl⟩ | hx
  · have hmem := List.mem_of_mem_filter hp
    have hne : p.name ≠ "_ret" := by
      intro hname
      apply hw.ret_notMem
      rw [← hname]
      exact List.mem_map_of_mem hmem
    change types.Has p.type (Function.update ρ "_ret" v p.name)
    rw [Function.update_of_ne hne]
    exact h p hmem
  · by_cases ht : f.type = "void"
    · rw [if_neg (not_not.mpr ht)] at hx
      cases hx
    · rw [if_pos ht, List.mem_singleton] at hx
      cases hx
      change types.Has f.type (Function.update ρ "_ret" v "_ret")
      rw [Function.update_self]
      exact hv ht

/-- A stub to which a reply comes returns what the reply holds. -/
theorem run_stub {ω : Type} {e : Endian} {srvr : ObjSrvr ω} {st : Stack} {op : UInt32}
    {ρ : Vars} {v : Scalar} {w : ω} {h : BufCodec × ω}
    {n : Int32 × Buffer UInt8 × Buffer UInt8 × ω} {o : Outcome σ} (hw : f.WellFormed types)
    (ht : f.Typed types ρ) (hv : f.type ≠ "void" → types.Has f.type v)
    (hput : putCmdHdr e srvr (tgtObj OBJ_CLASS 0) { buf := .fixed st.cmd, good := true } op w = h)
    (hn : srvr.send msgTypeCmd (Scalar.putAll e h.1 (f.inNames.map ρ)).buf.flip (.fixed st.rsp)
      h.2 = n) (h0 : n.1 = 0) (ho : f.Gives types o) (hlt : f.rspEnd types ≤ 2 ^ 31)
    (hb : results o ≠ [] →
      n.2.2.1.Valid ∧ n.2.2.1.pos = 0 ∧ Scalar.Laid e 0 (results o) n.2.2.1.unread) :
    ∃ r, Stub.run e srvr st v op f.inNames (if f.outs = [] then none else some f.outNames)
        (f.retType types) ρ w = r ∧
      r.1 = o.ret ∧ f.pointers.map r.2.1 = o.outs ∧ r.2.2 = n.2.2.2 := by
  refine ⟨_, rfl, ?_⟩
  unfold Stub.run
  rw [hput]
  dsimp only
  rw [hn]
  have hlen := ho.length_results
  have hlenp := ho.length_outs
  rw [outNames, List.length_map] at hlen
  by_cases hnil : f.outs = []
  · -- there is nothing to come back
    rw [hnil] at hlen
    have hres : results o = [] := List.eq_nil_of_length_eq_zero hlen.symm
    rw [results, List.append_eq_nil_iff] at hres
    rw [hres.1] at hlenp
    rw [if_pos hnil, List.eq_nil_of_length_eq_zero hlenp, hres.1]
    exact ⟨(Option.toList_eq_nil_iff.mp hres.2).symm, rfl, rfl⟩
  · have hres : results o ≠ [] := by
      intro hc
      rw [hc] at hlen
      exact hnil (List.eq_nil_of_length_eq_zero hlen)
    have hneg : ¬n.1 < 0 := by
      rw [h0]
      decide
    rcases hb hres with ⟨hbv, hbp, hbu⟩
    have hend : layoutEnd n.2.2.1.pos ((results o).map Scalar.size) = f.rspEnd types := by
      rw [hbp, ho.sizes_results]
      rfl
    obtain ⟨b, hget⟩ := Scalar.getAll_laid hbv (by rw [hbp]; exact hbu)
      (by rw [hend]; exact hlt) (sameType_outs hw ho ht hv)
    rcases ho.setAll_results hw (Function.update ρ "_ret" v) with ⟨hp, hr⟩
    rw [if_neg hnil]
    dsimp only
    rw [if_neg hneg, hget]
    refine ⟨?_, hp, rfl⟩
    by_cases hvoid : f.type = "void"
    · rw [retType, if_pos hvoid, ho.void hvoid]
      rfl
    · rcases Option.isSome_iff_exists.mp (hw.ret hvoid) with ⟨t, hty⟩
      rw [retType, if_neg hvoid, hty, hr hvoid]
      rfl

end Func

/-- An interface that the compiler for C++ takes as it is meant: no name in it hides another, and
its functions are taken. -/
structure Iface.WellFormed (types : Types) (i : Iface) : Prop where
  clear : i.Clear
  length_lt : i.funcs.length < 2 ^ 32
  funcs : ∀ f ∈ i.funcs, f.WellFormed types

theorem Iface.WellFormed.consts {types : Types} {i : Iface} (hw : i.WellFormed types) :
    (i.funcs.map Func.cmdConstName).Nodup := hw.clear.classes.consts.2.1

theorem Iface.WellFormed.count {types : Types} {i : Iface} (hw : i.WellFormed types) :
    "N_CMD" ∉ i.funcs.map Func.cmdConstName := hw.clear.classes.consts.2.2

section Calls

variable {σ : Type} {types : Types} {i : Iface} {impl : Func → Method σ} {f : Func}

/-- The stub of a function puts the number of that function into the command. -/
theorem Iface.stub_eq {ω : Type} (e : Endian) (hw : i.WellFormed types) {k : Nat}
    (hk : k < i.funcs.length) (hf : i.funcs[k] = f) (srvr : ObjSrvr ω) (st : Stack)
    (junk : Vars) : i.stub e types f srvr st junk = some fun args w ↦
      let r := Stub.run e srvr st (junk "_ret") (UInt32.ofNat k) f.inNames
        (if f.outs = [] then none else some f.outNames) (f.retType types)
        (junk.setAll (f.params.map (·.name)) args) w
      { ret := r.1, outs := f.pointers.map r.2.1, state := r.2.2 } := by
  have hop : i.sent f = some k := by
    rw [← hf, hw.clear.sent_getElem hk, Nat.mod_eq_of_lt (Nat.lt_trans hk hw.length_lt)]
  rcases f.stub_decode_cases with ⟨hd, hnil⟩ | ⟨ops, hd, hnil, hs⟩
  · simp only [Iface.stub, hop, f.scalars_stub_encode, hd, if_pos hnil]
  · simp only [Iface.stub, hop, f.scalars_stub_encode, hd, hs, if_neg hnil, Option.map_some]

/-- The client's and the server's buffers have room for a call of the function, and the skeleton
is registered with an implementation behind it. -/
structure Iface.Serves (e : Endian) (types : Types) (junk : Vars) (i : Iface)
    (impl : Func → Method σ) (l : Peers σ) (f : Func) : Prop where
  mem : f ∈ i.funcs
  implements : f.Implements types (impl f)
  typed : f.Typed types junk
  cmd : f.cmdEnd types ≤ min 256 l.server.srvr.cmdBuf.capacity
  rsp : f.rspEnd types ≤ min 256 l.server.srvr.rspBuf.capacity
  obj : l.server.srvr.objReg.getObj (tgtObj OBJ_CLASS 0) = some (i.skel e junk impl)

/-- What is left after a call on a stub: the result and the variables are those of the call that
was made on the implementation, and the link is idle again. -/
structure Called (o : Outcome (Peers σ)) (d : Outcome σ) (l : Peers σ) : Prop where
  ret : o.ret = d.ret
  outs : o.outs = d.outs
  objs : o.state.server.objs = d.state
  idle : o.state.Idle
  cmd : o.state.server.srvr.cmdBuf.capacity = l.server.srvr.cmdBuf.capacity
  rsp : o.state.server.srvr.rspBuf.capacity = l.server.srvr.rspBuf.capacity
  objReg : o.state.server.srvr.objReg = l.server.srvr.objReg

/-- The encoder of a stub behind the header of the command. -/
theorem writing_putCmdHdr {ω : Type} (e : Endian) (srvr : ObjSrvr ω) (tgt : UInt32) (st : Stack)
    (op : UInt32) (w : ω) : ∃ b, putCmdHdr e srvr tgt { buf := .fixed st.cmd, good := true } op w =
        ({ buf := b, good := true }, (srvr.nextMsgId w).2) ∧ Scalar.Writing b ∧
      b.capacity = 256 ∧ b.pos = 12 ∧ b.written = cmdBytes e (srvr.nextMsgId w).1 tgt op := by
  rcases putCmdHdr_spec e srvr tgt st op w with ⟨b, hput, hb⟩
  have hcap : b.capacity = 256 := by
    have hbuf : b = (putCmdHdr e srvr tgt { buf := .fixed st.cmd, good := true } op w).1.buf := by
      rw [hput]
    rw [hbuf, putCmdHdr]
    simp only [BufCodec.capacity_put]
    exact st.length_cmd
  refine ⟨b, hput, ⟨hb.valid.pos_le, ?_⟩, hcap, hb.pos, hb.written⟩
  rw [hb.lim, hcap]

/-- A command of a stub that is sent over an idle link: its function was called with the values
that the stub was given, and what it gave comes back. -/
theorem Iface.send_called {e : Endian} {j : Journey} {junk ρ : Vars} {l : Peers σ} {k : Nat}
    (hi : l.Idle) (hw : i.WellFormed types) (hs : i.Serves e types junk impl l f)
    (hk : k < i.funcs.length) (hf : i.funcs[k] = f) (ht : f.Typed types ρ) :
    ∃ (r : Reply σ) (h : BufCodec × Peers σ),
      putCmdHdr e (Peers.objSrvr e j) (tgtObj OBJ_CLASS 0)
        { buf := .fixed j.stack.cmd, good := true } (UInt32.ofNat k) l = h ∧
      Peers.Exchanged e (l.client.nextMsgId).1 r l ((Peers.objSrvr e j).send msgTypeCmd
        (Scalar.putAll e h.1 (f.inNames.map ρ)).buf.flip (.fixed j.stack.rsp) h.2) ∧
      r.ret = 0 ∧ r.objs = (impl f (f.args ρ) l.server.objs).state ∧
      Scalar.Laid e 0 (Func.results (impl f (f.args ρ) l.server.objs)) r.rsp.buf.written := by
  have hwf := hw.funcs f hs.mem
  have hcmd := hs.cmd
  have hrsp := hs.rsp
  have hsizes := ht.sizes
  obtain ⟨b, hput, hwr, hcap, hpos, hwritten⟩ := writing_putCmdHdr e (Peers.objSrvr e j)
    (tgtObj OBJ_CLASS 0) j.stack (UInt32.ofNat k) l
  -- the values of the parameters behind the header
  have hend : layoutEnd b.pos ((f.inNames.map ρ).map Scalar.size) = f.cmdEnd types := by
    rw [hsizes, hpos]
    rfl
  have hroom : layoutEnd b.pos ((f.inNames.map ρ).map Scalar.size) ≤ b.capacity := by
    rw [hend, hcap]
    omega
  obtain ⟨b', bs, hall, hv, hpos', hw', hlaid⟩ := Scalar.putAll_laid (e := e) hwr hroom
    (by rw [hend]; omega)
  have hlen : b'.flip.unread.length ≤ f.cmdEnd types := by
    rw [Buffer.unread_flip, hv.length_written, hpos', hend]
  -- the next message id changes neither the server nor the ports
  have hi' : ((Peers.objSrvr e j).nextMsgId l).2.Idle :=
    ⟨hi.client_rd, hi.client_lossless, hi.server_rd, hi.server_lossless, hi.running, hi.quit⟩
  have hfix : (Buffer.fixed j.stack.rsp).capacity = 256 := j.stack.length_rsp
  obtain ⟨c, hc, hcpos, hcu, hex⟩ := Peers.send_exchanged (j := j) hi' (b := b'.flip) hv.flip
    (by rw [Buffer.unread_flip, hw', hwritten]) (by omega)
    (Nat.le_trans hlen (Nat.le_trans hcmd (Nat.min_le_right _ _)))
    (show (Buffer.fixed j.stack.rsp).pos = 0 from rfl) (by rw [hfix]; decide)
  -- the skeleton calls the function
  obtain ⟨r, hr, hret, hobjs, hvalid, hrpos, hres⟩ := Func.run_handler (e := e) (m := impl f)
    (b := c) (s := l.server.objs) hwf hs.implements hs.typed ht hc
    (by rw [hcpos, hcu, ← hpos]; exact hlaid) hcpos (by omega)
    (Nat.le_trans hrsp (Nat.min_le_right _ _)) (by omega)
  have hdisp : r = l.server.srvr.objReg.dispatch (tgtObj OBJ_CLASS 0) (UInt32.ofNat k)
      { buf := c, good := true } { buf := l.server.srvr.rspBuf.clear, good := true }
      l.server.objs := by
    have hinv := i.invokeCmd_of_lt e junk impl hw.consts hw.count hk hw.length_lt
    rw [hf] at hinv
    rw [DistObjRegistry.dispatch, hs.obj, ← hr]
    dsimp only [skel]
    rw [hinv]
  refine ⟨r, _, hput, ?_, hret, hobjs, hres⟩
  have hx := hex r hdisp hvalid (by rw [hrpos, hfix]; omega)
  dsimp only
  rw [hall]
  rcases hx with ⟨h1, h2, ⟨g1, g2, g3, g4, g5, g6, g7, g8, g9⟩, h4, h5⟩
  exact ⟨h1, h2, ⟨g1, g2, g3, g4, g5, g6, g7, g8, g9⟩, h4, h5⟩

/-- A call on a stub of an idle link. -/
theorem Iface.stub_called {e : Endian} {j : Journey} {junk : Vars} {l : Peers σ}
    (hi : l.Idle) (hw : i.WellFormed types) (hs : i.Serves e types junk impl l f) {junk' : Vars}
    (hret : f.type ≠ "void" → types.Has f.type ( junk' "_ret")) {args : List Scalar}
    (ha : List.Forall₂ (fun p v ↦ types.Has p.type v) f.params args) :
    ∃ m, i.stub e types f (Peers.objSrvr e j) j.stack junk' = some m ∧
      Called (m args l) (impl f args l.server.objs) l := by
  rcases List.getElem_of_mem hs.mem with ⟨k, hk, hf⟩
  have hwf := hw.funcs f hs.mem
  obtain ⟨ρ, hρ⟩ : ∃ ρ, junk'.setAll (f.params.map (·.name)) args = ρ := ⟨_, rfl⟩
  have ht : f.Typed types ρ := by
    rw [← hρ]
    exact hwf.typed_setAll junk' ha
  have hargs : f.args ρ = args := by
    rw [← hρ]
    exact hwf.args_setAll junk' ha.length_eq
  obtain ⟨r, h, hput, hx, hr0, hobjs, hlaid⟩ := i.send_called hi hw hs hk hf ht (j := j)
  have hgives := hs.implements.gives ρ l.server.objs ht
  have hrsp := hs.rsp
  obtain ⟨x, hrun, hret, houts, hstate⟩ := Func.run_stub hwf ht hret hput rfl
    (hx.ret.trans hr0) hgives (by omega) fun hne ↦ by
      rcases hx.body (hlaid.ne_nil hne) with ⟨hv, hp, hu⟩
      exact ⟨hv, hp, by rwa [hu]⟩
  rw [hargs] at hret houts hobjs
  have hrep := hx.replied
  have hrd := hx.rd
  have hll := hx.lossless
  rw [← hstate] at hrep hrd hll
  refine ⟨_, i.stub_eq e hw hk hf _ _ _, ?_⟩
  dsimp only
  rw [hρ, hrun]
  exact ⟨hret, houts, hrep.objs.trans hobjs,
    ⟨hrd, hll, hrep.rd, hrep.lossless, hrep.running, hrep.quit⟩, hrep.cmd, hrep.rsp, hrep.objReg⟩

/-! ### Any number of calls -/

/-- A call on a stub: its arguments, how its bytes travel, and what the memory of the result of
the stub holds. -/
structure Invocation where
  func : Func
  args : List Scalar
  journey : Journey
  junk : Vars

/-- Calls on stubs, one after another. -/
def Iface.callAll (e : Endian) (types : Types) (i : Iface) (l : Peers σ) :
    List Invocation → Option (List (Option Scalar × List Scalar) × Peers σ)
  | [] => some ([], l)
  | c :: cs =>
    match i.stub e types c.func (Peers.objSrvr e c.journey) c.journey.stack c.junk with
    | none => none
    | some m =>
      let o := m c.args l
      (callAll e types i o.state cs).map fun r ↦ ((o.ret, o.outs) :: r.1, r.2)

/-- The same calls made directly. -/
def applyAll (impl : Func → Method σ) (s : σ) :
    List Invocation → List (Option Scalar × List Scalar) × σ
  | [] => ([], s)
  | c :: cs =>
    let o := impl c.func c.args s
    let r := applyAll impl o.state cs
    ((o.ret, o.outs) :: r.1, r.2)

/-- A call of the types that the function declares. -/
structure Invocation.Typed (types : Types) (c : Invocation) : Prop where
  args : List.Forall₂ (fun p v ↦ types.Has p.type v) c.func.params c.args
  ret : c.func.type ≠ "void" → types.Has c.func.type (c.junk "_ret")

/-- Any number of calls on the stubs of an interface, whatever their memory holds and however the
bytes of each fall into chunks: every call returns what the implementation behind the
skeleton returned, the implementation was called with the same values in the same order, and the
link is idle again. -/
theorem Iface.callAll_faithful (e : Endian) (types : Types) (junk : Vars) (i : Iface)
    (impl : Func → Method σ) (l : Peers σ) (cs : List Invocation) (hi : l.Idle)
    (hw : i.WellFormed types) (hs : ∀ c ∈ cs, i.Serves e types junk impl l c.func)
    (ht : ∀ c ∈ cs, c.Typed types) :
    ∃ l', i.callAll e types l cs = some ((applyAll impl l.server.objs cs).1, l') ∧
      l'.server.objs = (applyAll impl l.server.objs cs).2 ∧ l'.Idle := by
  induction cs generalizing l with
  | nil => exact ⟨l, rfl, rfl, hi⟩
  | cons c cs ih =>
    have hc := ht c List.mem_cons_self
    obtain ⟨m, hm, hcall⟩ := i.stub_called (j := c.journey) hi hw (hs c List.mem_cons_self)
      hc.ret hc.args
    obtain ⟨l', h1, h2, h3⟩ := ih (m c.args l).state hcall.idle
      (fun c' hc' ↦ by
        rcases hs c' (List.mem_cons_of_mem c hc') with ⟨g1, g2, g3, g4, g5, g6⟩
        exact ⟨g1, g2, g3, by rwa [hcall.cmd], by rwa [hcall.rsp], by rwa [hcall.objReg]⟩)
      (fun c' hc' ↦ ht c' (List.mem_cons_of_mem c hc'))
    rw [hcall.objs] at h1 h2
    refine ⟨l', ?_, h2, h3⟩
    rw [callAll, hm]
    dsimp only
    rw [h1, applyAll, hcall.ret, hcall.outs]
    rfl

end Calls

/-! ### An interface at work -/

/-- Where `int` is a word of 32 bits. -/
def intTypes : Types := fun T ↦ if T = "int" then some .u32 else none

/-- Two of the functions of `tools/cfxidl/test.cidl`. -/
def addIface : Iface where
  name := "MyIface"
  funcs := [
    { type := "int", name := "add",
      params := [{ type := "int", name := "a1", dir := .IN },
        { type := "int", name := "a2", dir := .IN }] },
    { type := "void", name := "change_this",
      params := [{ type := "int", name := "n", dir := .INOUT }] }]

/-- An implementation that counts its calls, and adds their number to what it is to change. -/
def addImpl (_ : Func) : Method UInt32 := fun args s ↦
  match args with
  | [.u32 a, .u32 b] => { ret := some (.u32 (a + b)), outs := [], state := s + 1 }
  | [.u32 n] => { ret := none, outs := [.u32 (n + s)], state := s + 1 }
  | _ => { ret := none, outs := [], state := s }

theorem addImpl_implements : ∀ f ∈ addIface.funcs, f.Implements intTypes (addImpl f) := by
  have hint {v : Scalar} (h : intTypes.Has "int" v) : ∃ n, v = .u32 n := by
    rcases h with ⟨t, ht, hv⟩
    cases ht
    cases v with
    | u32 n => exact ⟨n, rfl⟩
    | _ => exact hv.elim
  have hhas (n : UInt32) : intTypes.Has "int" (.u32 n) := ⟨.u32, rfl, trivial⟩
  simp only [addIface, List.forall_mem_cons, List.not_mem_nil, false_imp_iff, implies_true,
    and_true]
  refine ⟨⟨fun ρ s ht ↦ ?_, fun ρ ρ' s _ _ heq ↦ ?_⟩, ⟨fun ρ s ht ↦ ?_, fun ρ ρ' s _ _ heq ↦ ?_⟩⟩
  · rcases hint (ht _ List.mem_cons_self) with ⟨a, ha⟩
    rcases hint (ht _ (List.mem_cons_of_mem _ List.mem_cons_self)) with ⟨b, hb⟩
    dsimp only at ha hb
    simp only [Func.args, List.map_cons, List.map_nil, ha, hb]
    exact ⟨fun h ↦ absurd h (by decide), fun _ ↦ ⟨_, rfl, hhas _⟩, .nil⟩
  · have h1 := heq "a1" (by decide)
    have h2 := heq "a2" (by decide)
    simp only [Func.args, List.map_cons, List.map_nil, h1, h2]
  · rcases hint (ht _ List.mem_cons_self) with ⟨n, hn⟩
    dsimp only at hn
    simp only [Func.args, List.map_cons, List.map_nil, hn]
    exact ⟨fun _ ↦ rfl, fun h ↦ absurd rfl h, .cons (hhas _) .nil⟩
  · have h1 := heq "n" (by decide)
    simp only [Func.args, List.map_cons, List.map_nil, h1]

/-- A client, and a server with the skeleton of the interface. -/
def addLink : Peers UInt32 where
  client := .create (.deliver []) [] [] []
  server :=
    let d : DistObjSrvr UInt32 := .create (.deliver [])
      (List.replicate 3 { key := 0, obj := none }) (List.replicate 32 0) (List.replicate 32 0)
    let d := (d.registerObj (tgtObj OBJ_CLASS 0)
      (addIface.skel .little (fun _ ↦ .u32 7) addImpl)).2
    .start d default default 0

/-- A sum is asked for and a variable is changed, with the bytes one by one. -/
theorem Iface.callAll_faithful_two :
    ∃ l', addIface.callAll .little intTypes addLink
        [{ func := addIface.funcs[0], args := [.u32 2, .u32 3], journey := Link.oneByOne,
           junk := fun _ ↦ .u32 9 },
         { func := addIface.funcs[1], args := [.u32 5], journey := Link.oneByOne,
           junk := fun _ ↦ .u32 9 }] =
        some ([(some (.u32 5), []), (none, [.u32 6])], l') ∧
      l'.server.objs = 2 ∧ l'.Idle := by
  have hint (n : UInt32) : intTypes.Has "int" (.u32 n) := ⟨.u32, rfl, trivial⟩
  have hjunk : ∀ f ∈ addIface.funcs, f.Typed intTypes fun _ ↦ .u32 7 := by
    have htype : ∀ f ∈ addIface.funcs, ∀ p ∈ f.params, p.type = "int" := by decide
    intro f hf p hp
    rw [htype f hf p hp]
    exact hint 7
  have hl : Port.Lossless (.deliver []) := fun _ hr ↦ (nomatch hr)
  have himpl := addImpl_implements
  simp only [addIface, List.forall_mem_cons, List.not_mem_nil, false_imp_iff, implies_true,
    and_true] at himpl
  refine addIface.callAll_faithful .little intTypes (fun _ ↦ .u32 7) addImpl addLink _
    ⟨rfl, hl, rfl, hl, rfl, rfl⟩ ⟨⟨by decide, by decide⟩, by decide, ?_⟩ ?_ ?_
  · simp only [addIface, List.forall_mem_cons, List.not_mem_nil, false_imp_iff, implies_true,
      and_true]
    exact ⟨⟨by decide, by decide, by decide⟩, ⟨by decide, by decide, by decide⟩⟩
  · simp only [List.forall_mem_cons, List.not_mem_nil, false_imp_iff, implies_true, and_true]
    have h1 : addIface.funcs[1] ∈ addIface.funcs := List.mem_cons_of_mem _ List.mem_cons_self
    exact ⟨⟨List.mem_cons_self, himpl.1, hjunk _ List.mem_cons_self, by decide, by decide, rfl⟩,
      ⟨h1, himpl.2, hjunk _ h1, by decide, by decide, rfl⟩⟩
  · simp only [List.forall_mem_cons, List.not_mem_nil, false_imp_iff, implies_true, and_true]
    exact ⟨⟨.cons (hint 2) (.cons (hint 3) .nil), fun _ ↦ hint 9⟩,
      ⟨.cons (hint 5) .nil, fun h ↦ absurd rfl h⟩⟩

end CtrlrFx.Idl
