import CtrlrFx.Data.RawCircQueue

/-!
# Circular queues of bytes

`CtrlrFx/CircQueue.h:364–430`: the block operations of a queue of bytes copy with `memcpy`, and
look first whether a block ends where the memory does. The undeclared `empty_` of the source is
read as `empty()`.
-/

namespace CtrlrFx.Data
open Base

namespace RawCircQueue

instance (q : RawCircQueue UInt8) (a n : Nat) : Decidable (q.Inside a n) :=
  inferInstanceAs (Decidable (_ ∨ _))

/-- `memcpy` into the queue, of all bytes at once. -/
def memcpyIn (q : RawCircQueue UInt8) (a : Nat) (xs : List UInt8) : RawCircQueue UInt8 :=
  { q with
    mem := fun i ↦ if a ≤ i then xs.getD (i - a) (q.mem i) else q.mem i
    stray := q.stray || !decide (q.Inside a xs.length) }

/-- `memcpy` out of the queue. -/
def memcpyOut (q : RawCircQueue UInt8) (a n : Nat) : List UInt8 × RawCircQueue UInt8 :=
  (Window.cells q.mem a n, { q with stray := q.stray || !decide (q.Inside a n) })

/-- `CtrlrFx/CircQueue.h:370–395`. -/
def putBytes (q : RawCircQueue UInt8) (buf : List UInt8) : Nat × RawCircQueue UInt8 :=
  let n := min buf.length q.remaining
  let nwrap := ptrDiff q.stop q.put
  if n < nwrap then (n, { q.memcpyIn q.put (buf.take n) with put := q.put + n })
  else if n = nwrap then (n, { q.memcpyIn q.put (buf.take n) with put := q.base })
  else
    let nrem := n - nwrap
    let q' := (q.memcpyIn q.put (buf.take nwrap)).memcpyIn q.base ((buf.drop nwrap).take nrem)
    (n, { q' with put := q.base + nrem })

/-- `CtrlrFx/CircQueue.h:402–430`. -/
def getBytes (q : RawCircQueue UInt8) (n : Nat) : Nat × List UInt8 × RawCircQueue UInt8 :=
  if q.empty then (0, [], q)
  else
    let n := min n q.size
    let nwrap := ptrDiff q.stop q.get
    if n < nwrap then
      let r := q.memcpyOut q.get n
      (n, r.1, { r.2 with get := q.get + n })
    else if n = nwrap then
      let r := q.memcpyOut q.get n
      (n, r.1, { r.2 with get := q.base })
    else
      let nrem := n - nwrap
      let r := q.memcpyOut q.get nwrap
      let r' := r.2.memcpyOut q.base nrem
      (n, r.1 ++ r'.1, { r'.2 with get := q.base + nrem })

/-- A note of accesses says the same whether it is kept one by one or for all together. -/
theorem stray_eq {st stray : Bool} {p : Prop} [Decidable p]
    (h : st = false ↔ stray = false ∧ p) : st = (stray || !decide p) := by
  by_cases hp : p
  · rw [decide_eq_true hp, Bool.not_true, Bool.or_false]
    rw [and_iff_left hp] at h
    cases st
    · exact (h.mp rfl).symm
    · cases hs : stray
      · exact h.mpr hs
      · rfl
  · rw [decide_eq_false hp, Bool.not_false, Bool.or_true]
    cases st
    · exact absurd (h.mp rfl).2 hp
    · rfl

/-- Copied at once is copied one by one. -/
theorem memcpyIn_eq (q : RawCircQueue UInt8) (a : Nat) (xs : List UInt8) :
    q.memcpyIn a xs = q.copyIn a xs := by
  rcases copyIn_eq q a xs with ⟨st, hc, hst⟩
  have hmem : (fun i ↦ if a ≤ i then xs.getD (i - a) (q.mem i) else q.mem i) =
      Window.store q.mem a xs := by
    funext i
    exact (Window.store_apply q.mem a xs i).symm
  rw [hc, stray_eq hst, memcpyIn, hmem]

theorem memcpyOut_eq (q : RawCircQueue UInt8) (a n : Nat) : q.memcpyOut a n = q.copyOut a n := by
  rcases copyOut_eq q a n with ⟨st, hc, hst⟩
  rw [hc, stray_eq hst, memcpyOut]

/-- A block put that ends where the memory does has nothing left for the second copy. -/
theorem putBytes_eq (q : RawCircQueue UInt8) (buf : List UInt8) :
    q.putBytes buf = q.putBlock buf := by
  unfold putBytes putBlock
  simp only [memcpyIn_eq]
  generalize min buf.length q.remaining = n
  generalize ptrDiff q.stop q.put = nwrap
  split
  · rfl
  · split
    · next he =>
      subst he
      rw [Nat.sub_self, List.take_zero, copyIn, Nat.add_zero]
    · rfl

theorem getBytes_eq (q : RawCircQueue UInt8) (n : Nat) : q.getBytes n = q.getBlock n := by
  unfold getBytes getBlock
  simp only [memcpyOut_eq]
  split
  · rfl
  · generalize min n q.size = n
    generalize ptrDiff q.stop q.get = nwrap
    split
    · rfl
    · split
      · next he =>
        subst he
        rw [Nat.sub_self, copyOut, Nat.add_zero, List.append_nil]
      · rfl

/-- The operations for bytes return the same, transfer the same bytes to the same places and
leave the same queue as those for any type, in every state. -/
theorem circBytes_agree (q : RawCircQueue UInt8) :
    (∀ buf, q.putBytes buf = q.putBlock buf) ∧ ∀ n, q.getBytes n = q.getBlock n :=
  ⟨putBytes_eq q, getBytes_eq q⟩

end RawCircQueue
end CtrlrFx.Data
