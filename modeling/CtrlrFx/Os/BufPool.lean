import CtrlrFx.Data.Buffer
import CtrlrFx.Os.MsgQueue
import Mathlib.Logic.Function.Basic

/-!
# Buffer pools

`CtrlrFx/BufPool.h`, `CtrlrFx/ObjPool.h`: a message queue of pointers to buffers, built by
one thread while no other uses it. The heap maps each address to its buffer.
-/

namespace CtrlrFx.Os
open Base Data

namespace MsgQueue

variable {T : Type}

/-- A queue without memory; `CtrlrFx/MsgQueue.h:208–212`. -/
def unset : MsgQueue T :=
  { sz := 0, buf := [], put := 0, get := 0, own := false, slotSem := 0, dataSem := 0 }

/-- `put` of a thread that is alone with the queue; blocked without a slot.
`CtrlrFx/MsgQueue.h:367–371`. -/
def putAlone (q : MsgQueue T) (v : T) : Option (MsgQueue T) :=
  if q.slotSem = 0 then none
  else
    let q' := { q with slotSem := q.slotSem - 1 }.doPut v
    some { q' with dataSem := q'.dataSem + 1 }

/-- `get` of a thread that is alone with the queue; blocked without a value.
`CtrlrFx/MsgQueue.h:401–408`. -/
def getAlone (q : MsgQueue T) : Option (T × MsgQueue T) :=
  if q.dataSem = 0 then none
  else
    ({ q with dataSem := q.dataSem - 1 } : MsgQueue T).doGet.map fun (v, q') ↦
      (v, { q' with slotSem := q'.slotSem + 1 })

/-- A queue with no operation in progress: every token is in a semaphore. -/
structure Quiet (q : MsgQueue T) : Prop where
  wf : q.WF
  slots : q.sz + q.slotSem = q.capacity
  datas : q.dataSem = q.sz

theorem quiet_resize (q : MsgQueue T) (fresh : List T) : (q.resize fresh).Quiet := by
  rw [resize_eq]
  exact ⟨wf_setBuffer _ _ _, by simp, by simp⟩

theorem Quiet.putAlone {q : MsgQueue T} (h : q.Quiet) (v : T)
    (hs : q.contents.length < q.capacity) :
    ∃ q', q.putAlone v = some q' ∧ q'.Quiet ∧ q'.contents = q.contents ++ [v] ∧
      q'.capacity = q.capacity := by
  rw [length_contents h.wf] at hs
  have h1 := h.slots
  have h2 := h.datas
  have hw : { q with slotSem := q.slotSem - 1 }.WF := ⟨h.wf.put_eq, h.wf.get_lt, h.wf.sz_le⟩
  have hd := wf_doPut v hw hs
  refine ⟨_, if_neg (by omega), ⟨⟨hd.put_eq, hd.get_lt, hd.sz_le⟩, ?_, ?_⟩,
    contents_doPut v hw hs, capacity_doPut _ v⟩
  · change q.sz + 1 + (q.slotSem - 1) = ({ q with slotSem := q.slotSem - 1 }.doPut v).capacity
    rw [capacity_doPut]
    change q.sz + 1 + (q.slotSem - 1) = q.capacity
    omega
  · change q.dataSem + 1 = q.sz + 1
    rw [h2]

theorem Quiet.getAlone {q : MsgQueue T} {v : T} {vs : List T} (h : q.Quiet)
    (hc : q.contents = v :: vs) :
    ∃ q', q.getAlone = some (v, q') ∧ q'.Quiet ∧ q'.contents = vs ∧
      q'.capacity = q.capacity := by
  have hl := length_contents h.wf
  rw [hc, List.length_cons] at hl
  have h1 := h.slots
  have h2 := h.datas
  have hw : { q with dataSem := q.dataSem - 1 }.WF := ⟨h.wf.put_eq, h.wf.get_lt, h.wf.sz_le⟩
  obtain ⟨u, q', hd, hcu, hw', hcap, hsz, -, hss, hds⟩ :=
    doGet_spec hw (show 0 < q.sz by omega)
  have hcu' : v :: vs = u :: q'.contents := hc.symm.trans hcu
  cases hcu'
  refine ⟨{ q' with slotSem := q'.slotSem + 1 }, ?_,
    ⟨⟨hw'.put_eq, hw'.get_lt, hw'.sz_le⟩, ?_, ?_⟩, rfl, hcap⟩
  · rw [MsgQueue.getAlone, if_neg (by omega), hd, Option.map_some]
  · change q'.sz + (q'.slotSem + 1) = q'.capacity
    rw [hcap, hsz, hss]
    change q.sz - 1 + (q.slotSem + 1) = q.capacity
    omega
  · change q'.dataSem = q'.sz
    rw [hds, hsz, ← h2]

end MsgQueue

/-- A queue of addresses and the buffers on the heap. -/
structure BufPool (A T : Type) where
  queue : MsgQueue A
  heap : A → Buffer T

namespace BufPool

variable {A T : Type} [DecidableEq A]

/-- Puts a new buffer at each of the addresses; `CtrlrFx/ObjPool.h:56–61`. -/
def fill (p : BufPool A T) : List A → Option (BufPool A T)
  | [] => some p
  | a :: as => (p.queue.putAlone a).bind fun q ↦
    fill { queue := q, heap := Function.update p.heap a .empty } as

/-- Takes out as many buffers as there are new blocks, resizes each and puts it back;
`CtrlrFx/BufPool.h:114–126`. -/
def resizeBuffers (p : BufPool A T) : List (List T) → Option (BufPool A T)
  | [] => some p
  | m :: ms => p.queue.getAlone.bind fun (a, q) ↦ (q.putAlone a).bind fun q' ↦
    resizeBuffers { queue := q', heap := Function.update p.heap a ((p.heap a).resize m) } ms

/-- `BufPool(n, sz)`: a queue on new `cells`, new buffers at `addrs`, and a new block for
each; `CtrlrFx/BufPool.h:100–104`. -/
def create (heap : A → Buffer T) (cells addrs : List A) (blocks : List (List T)) :
    Option (BufPool A T) :=
  (fill { queue := MsgQueue.unset.resize cells, heap := heap } addrs).bind
    fun p ↦ p.resizeBuffers blocks

theorem fill_spec {p : BufPool A T} {as : List A} (h : p.queue.Quiet)
    (hr : p.queue.contents.length + as.length ≤ p.queue.capacity) :
    ∃ p', p.fill as = some p' ∧ p'.queue.Quiet ∧ p'.queue.contents = p.queue.contents ++ as ∧
      p'.queue.capacity = p.queue.capacity := by
  induction as generalizing p with
  | nil => exact ⟨p, rfl, h, (List.append_nil _).symm, rfl⟩
  | cons a as ih =>
    rw [List.length_cons] at hr
    obtain ⟨q, hq, hqq, hqc, hqcap⟩ := h.putAlone a (by omega)
    obtain ⟨p', hp, hpq, hpc, hpcap⟩ :=
      ih (p := { queue := q, heap := Function.update p.heap a .empty }) hqq
        (by simp only [hqc, hqcap, List.length_append, List.length_singleton]; omega)
    refine ⟨p', ?_, hpq, ?_, hpcap.trans hqcap⟩
    · rw [fill, hq, Option.bind_some, hp]
    · rw [hpc, hqc, List.append_assoc, List.singleton_append]

/-- A pass over the first buffers of the queue resizes just these and moves them behind the
others. -/
theorem resizeBuffers_spec {p : BufPool A T} {todo rest : List A} {blocks : List (List T)}
    {S : Nat} (h : p.queue.Quiet) (hc : p.queue.contents = todo ++ rest)
    (hn : blocks.length = todo.length) (hS : ∀ m ∈ blocks, m.length = S) :
    ∃ p', p.resizeBuffers blocks = some p' ∧ p'.queue.Quiet ∧
      p'.queue.contents = rest ++ todo ∧ p'.queue.capacity = p.queue.capacity ∧
      (∀ a ∈ todo, (p'.heap a).capacity = S ∧ (p'.heap a).Valid) ∧
      ∀ a ∉ todo, p'.heap a = p.heap a := by
  induction blocks generalizing p todo rest with
  | nil =>
    obtain rfl := List.eq_nil_of_length_eq_zero hn.symm
    exact ⟨p, rfl, h, by rw [hc, List.nil_append, List.append_nil], rfl,
      fun a ha ↦ absurd ha List.not_mem_nil, fun _ _ ↦ rfl⟩
  | cons m ms ih =>
    cases todo with
    | nil => cases hn
    | cons a todo =>
      have hc' : p.queue.contents = a :: (todo ++ rest) := hc
      obtain ⟨q, hq, hqq, hqc, hqcap⟩ := h.getAlone hc'
      have hl := MsgQueue.length_contents h.wf
      have hle := h.wf.sz_le
      rw [hc, List.cons_append, List.length_cons] at hl
      obtain ⟨q', hq', hqq', hqc', hqcap'⟩ := hqq.putAlone a (by rw [hqc, hqcap]; omega)
      rw [hqc, List.append_assoc] at hqc'
      obtain ⟨p', hp, hpq, hpc, hpcap, hin, hout⟩ :=
        ih (p := { queue := q', heap := Function.update p.heap a ((p.heap a).resize m) })
          hqq' hqc' (Nat.succ.inj hn) (fun m' hm' ↦ hS m' (List.mem_cons_of_mem _ hm'))
      refine ⟨p', ?_, hpq, ?_, ?_, fun b hb ↦ ?_, fun b hb ↦ ?_⟩
      · rw [resizeBuffers, hq, Option.bind_some]
        change (q.putAlone a).bind _ = some p'
        rw [hq', Option.bind_some, hp]
      · rw [hpc, List.append_assoc, List.singleton_append]
      · rw [hpcap, hqcap', hqcap]
      · by_cases ht : b ∈ todo
        · exact hin b ht
        · obtain rfl : b = a := (List.mem_cons.mp hb).resolve_right ht
          have hb' : p'.heap b = (p.heap b).resize m :=
            (hout b ht).trans (Function.update_self b _ _)
          rw [hb']
          exact ⟨hS m List.mem_cons_self, Buffer.valid_alloc m⟩
      · obtain ⟨hba, ht⟩ := not_or.mp (mt List.mem_cons.mpr hb)
        exact (hout b ht).trans (Function.update_of_ne hba _ _)

/-- Building a pool of as many blocks as addresses never blocks and leaves every buffer in
the queue with its new size. -/
theorem create_spec (heap : A → Buffer T) {cells addrs : List A} {blocks : List (List T)}
    {S : Nat} (hc : cells.length = addrs.length) (hb : blocks.length = addrs.length)
    (hS : ∀ m ∈ blocks, m.length = S) :
    ∃ p, create heap cells addrs blocks = some p ∧ p.queue.Quiet ∧
      p.queue.contents = addrs ∧ p.queue.capacity = addrs.length ∧
      ∀ a ∈ addrs, (p.heap a).capacity = S ∧ (p.heap a).Valid := by
  have h0 := MsgQueue.quiet_resize MsgQueue.unset cells
  have hc0 := MsgQueue.contents_resize MsgQueue.unset cells
  have hcap0 := MsgQueue.capacity_resize MsgQueue.unset cells
  have hr := MsgQueue.room_resize MsgQueue.unset hc
  unfold create
  generalize MsgQueue.unset.resize cells = q at h0 hc0 hcap0 hr
  obtain ⟨p, hp, hpq, hpc, hpcap⟩ := fill_spec (p := ⟨q, heap⟩) h0 hr
  have hpc' : p.queue.contents = addrs ++ [] := by rw [hpc, hc0, List.append_nil]; rfl
  obtain ⟨p', hp', hpq', hpc', hpcap', hin, -⟩ :=
    resizeBuffers_spec hpq hpc' hb hS
  exact ⟨p', by rw [hp, Option.bind_some, hp'], hpq', hpc', by rw [hpcap', hpcap, hcap0, hc],
    hin⟩

end BufPool
end CtrlrFx.Os
