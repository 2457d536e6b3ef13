import CtrlrFx.Os.BufPool

/-!
# Sizing a pool of buffers

`CtrlrFx/BufPool.h:100–126`: the constructor makes the buffers and then sends them around the queue
to resize them. `resize` sends them around as well, but finds the queue of the base class emptied.
-/

namespace CtrlrFx.Os
open Base Data

namespace MsgQueue

variable {T : Type}

/-- A `get` waits for good in a queue that was given new memory. -/
theorem getAlone_resize (q : MsgQueue T) (cells : List T) : (q.resize cells).getAlone = none := by
  rw [resize_eq]
  exact if_pos (dataSem_setBuffer q cells true)

end MsgQueue

namespace BufPool

variable {A T : Type} [DecidableEq A]

/-- A queue on new `cells`, and a new block for each of its slots; `CtrlrFx/BufPool.h:106–111`. -/
def resize (p : BufPool A T) (cells : List A) (blocks : List (List T)) : Option (BufPool A T) :=
  { p with queue := p.queue.resize cells }.resizeBuffers blocks

/-- Which buffers `resizeBuffers` resizes, one after the other. -/
def resized (p : BufPool A T) : List (List T) → List A
  | [] => []
  | m :: ms =>
    match p.queue.getAlone with
    | none => []
    | some (a, q) =>
      match q.putAlone a with
      | none => [a]
      | some q' =>
        a :: resized { queue := q', heap := Function.update p.heap a ((p.heap a).resize m) } ms

/-- A pass over the first buffers of the queue resizes each of them, and no other. -/
theorem resized_eq {p : BufPool A T} {todo rest : List A} {blocks : List (List T)}
    (h : p.queue.Quiet) (hc : p.queue.contents = todo ++ rest)
    (hn : blocks.length = todo.length) : p.resized blocks = todo := by
  induction blocks generalizing p todo rest with
  | nil => exact (List.eq_nil_of_length_eq_zero hn.symm).symm
  | cons m ms ih =>
    cases todo with
    | nil => cases hn
    | cons a todo =>
      have hc' : p.queue.contents = a :: (todo ++ rest) := hc
      rcases h.getAlone hc' with ⟨q, hq, hqq, hqc, hqcap⟩
      have hl := MsgQueue.length_contents h.wf
      have hle := h.wf.sz_le
      rw [hc, List.cons_append, List.length_cons] at hl
      rcases hqq.putAlone a (by rw [hqc, hqcap]; omega) with ⟨q', hq', hqq', hqc', -⟩
      rw [hqc, List.append_assoc] at hqc'
      rw [resized, hq]
      dsimp only
      rw [hq']
      exact congrArg (a :: ·)
        (ih (p := { queue := q', heap := Function.update p.heap a ((p.heap a).resize m) }) hqq' hqc'
          (Nat.succ.inj hn))

/-- A call that came to its end and left `n` different buffers of capacity `sz` in the pool, of
which it resized each once. -/
def Sizes (n sz : Nat) (result : Option (BufPool A T)) (resized : List A) : Prop :=
  ∃ p, result = some p ∧ p.queue.contents.length = n ∧ p.queue.contents.Nodup ∧
    (∀ a ∈ p.queue.contents, (p.heap a).capacity = sz) ∧
    ∀ a ∈ p.queue.contents, resized.count a = 1

/-- The pool that the constructor of the base class leaves. -/
def filled (heap : A → Buffer T) (cells addrs : List A) : Option (BufPool A T) :=
  fill { queue := MsgQueue.unset.resize cells, heap := heap } addrs

/-- The constructor resizes each of the new buffers once. -/
theorem resized_filled (heap : A → Buffer T) {cells addrs : List A} {blocks : List (List T)}
    (hc : cells.length = addrs.length) (hb : blocks.length = addrs.length) :
    ∃ p, filled heap cells addrs = some p ∧
      create heap cells addrs blocks = p.resizeBuffers blocks ∧ p.resized blocks = addrs := by
  rcases fill_spec (p := ⟨MsgQueue.unset.resize cells, heap⟩) (MsgQueue.quiet_resize _ _)
    (MsgQueue.room_resize _ hc) with ⟨p, hp, hpq, hpc, -⟩
  refine ⟨p, hp, ?_, ?_⟩
  · rw [create, hp, Option.bind_some]
  · have hpc' : p.queue.contents = addrs ++ [] := by
      rw [hpc, MsgQueue.contents_resize, List.nil_append, List.append_nil]
    exact resized_eq hpq hpc' hb

/-- `resize` waits for a buffer that is not there, whatever the pool was. -/
theorem resize_blocks (p : BufPool A T) (cells : List A) {blocks : List (List T)}
    (hb : blocks ≠ []) : p.resize cells blocks = none := by
  cases blocks with
  | nil => exact absurd rfl hb
  | cons m ms => rw [resize, resizeBuffers, MsgQueue.getAlone_resize, Option.bind_none]

/-- The constructor sizes the pool, and `resize` never does: for every number of buffers, at
different addresses, and every size. -/
theorem sizes_iff {n sz : Nat} (hn : 1 ≤ n) (heap : A → Buffer T) {cells addrs : List A}
    {blocks : List (List T)} (hc : cells.length = n) (ha : addrs.length = n) (hd : addrs.Nodup)
    (hb : blocks.length = n) (hs : ∀ m ∈ blocks, m.length = sz) :
    (∃ p, filled heap cells addrs = some p ∧
      Sizes n sz (create heap cells addrs blocks) (p.resized blocks)) ∧
    ∀ (p : BufPool A T) (log : List A), ¬Sizes n sz (p.resize cells blocks) log := by
  constructor
  · rcases resized_filled heap (hc.trans ha.symm) (hb.trans ha.symm) with ⟨p, hp, -, hr⟩
    rcases create_spec heap (hc.trans ha.symm) (hb.trans ha.symm) hs with ⟨q, hq, -, hqc, -, hcap⟩
    refine ⟨p, hp, q, hq, ?_, ?_, ?_, ?_⟩
    · rw [hqc, ha]
    · rwa [hqc]
    · rw [hqc]
      exact fun a h ↦ (hcap a h).1
    · rw [hqc, hr]
      exact fun a h ↦ List.count_eq_one_of_mem hd h
  · rintro p log ⟨q, hq, -⟩
    have hne : blocks ≠ [] := by
      rintro rfl
      rw [List.length_nil] at hb
      omega
    rw [resize_blocks p cells hne] at hq
    cases hq

/-- Two buffers of three items. -/
theorem sizes_iff_two :
    let blocks : List (List Nat) := [[0, 0, 0], [0, 0, 0]]
    (∃ p, filled (fun _ ↦ .empty) [0, 0] [10, 11] = some p ∧
      Sizes 2 3 (create (fun _ ↦ .empty) [0, 0] [10, 11] blocks) (p.resized blocks)) ∧
    ∀ (p : BufPool Nat Nat) (log : List Nat), ¬Sizes 2 3 (p.resize [0, 0] blocks) log :=
  sizes_iff (by decide) _ rfl rfl (by decide) rfl (by decide)

/-- A pool that has its one buffer waits for it. -/
theorem not_sizes_resize : ¬∀ (p : BufPool Nat Nat) (cells : List Nat) (blocks : List (List Nat)),
    p.queue.Quiet → p.queue.contents.length = p.queue.capacity →
    cells.length = 1 → blocks.length = 1 → (∀ m ∈ blocks, m.length = 1) →
    ∃ log, Sizes 1 1 (p.resize cells blocks) log := by
  intro h
  rcases h { queue := ⟨1, [10], 0, 0, true, 0, 1⟩, heap := fun _ ↦ .alloc [0] } [0] [[0]]
    ⟨⟨by decide, by decide, by decide⟩, by decide, by decide⟩ rfl rfl rfl (by decide) with
    ⟨log, p, hp, -⟩
  cases hp

end BufPool
end CtrlrFx.Os
