import CtrlrFx.Data.BufCodec

/-!
# Payloads

Scalars that are put behind what a buffer already holds, sent as bytes, and got from another
buffer at the same place. The bytes between the scalars are what the memory of the first buffer
held.
-/

namespace CtrlrFx.Data
open Base

namespace Scalar

/-- Alignment is right wherever a layout goes that ends within two gigabytes. -/
theorem narrow_of_layoutEnd {ns : List Nat} {p : Nat} (hn : ∀ n ∈ ns, 0 < n)
    (h : layoutEnd p ns ≤ 2 ^ 31) : Narrow p ns := by
  induction ns generalizing p with
  | nil => trivial
  | cons n ns ih =>
    have h0 := hn n List.mem_cons_self
    have hns : ∀ m ∈ ns, 0 < m := fun m hm ↦ hn m (List.mem_cons_of_mem n hm)
    have hle := le_roundUp p h0
    have hend := le_layoutEnd (roundUp n p + n) hns
    rw [layoutEnd] at h
    refine ⟨.inr ?_, ih hns h⟩
    rw [Nat.mod_eq_of_lt (by omega)]
    omega

/-- A put for which there is room succeeds. -/
theorem good_put {e : Endian} {c : BufCodec} {v : Scalar} (hg : c.good = true)
    (hw : Writing c.buf) (hp : v.size ∣ c.buf.pos ∨ c.buf.pos % 2 ^ 32 < 2 ^ 31)
    (hr : roundUp v.size c.buf.pos + v.size ≤ c.buf.capacity) : (v.put e c).2.good = true := by
  apply put_of_room hg
  rw [Buffer.pos_align_of_le v.width_size hp hr]
  exact Nat.le_trans hr (Nat.le_of_eq hw.lim_eq.symm)

/-- Where it leaves the buffer. -/
theorem pos_put {e : Endian} {c : BufCodec} {v : Scalar} (hw : Writing c.buf)
    (hp : v.size ∣ c.buf.pos ∨ c.buf.pos % 2 ^ 32 < 2 ^ 31)
    (hg : (v.put e c).2.good = true) :
    (v.put e c).2.buf.pos = roundUp v.size c.buf.pos + v.size ∧
      (v.put e c).2.buf.capacity = c.buf.capacity := by
  obtain ⟨-, hbuf⟩ := put_narrow hw hp hg
  refine ⟨by rw [hbuf], ?_⟩
  rw [put_eq]
  exact BufCodec.capacity_putRaw c _ _

/-- Puts for which there is room all succeed. -/
theorem good_putAll {e : Endian} {c : BufCodec} {vs : List Scalar} (hg : c.good = true)
    (hw : Writing c.buf) (hn : Narrow c.buf.pos (vs.map size))
    (hr : layoutEnd c.buf.pos (vs.map size) ≤ c.buf.capacity) : (putAll e c vs).good = true := by
  induction vs generalizing c with
  | nil => exact hg
  | cons v vs ih =>
    rcases hn with ⟨hp, hns⟩
    rw [List.map_cons, layoutEnd] at hr
    have hfit : roundUp v.size c.buf.pos + v.size ≤ c.buf.capacity :=
      Nat.le_trans (le_layoutEnd _ pos_of_mem_sizes) hr
    have hput : (v.put e c).2.good = true := good_put hg hw hp hfit
    obtain ⟨hpos, hcap⟩ := pos_put hw hp hput
    apply ih hput (writing_put hw hp hput)
    · rwa [hpos]
    · rwa [hpos, hcap]

/-- Only the bytes from the start of the layout to its end matter. -/
theorem Stored.of_read {e : Endian} {mem mem' : List UInt8} {p q : Nat} {vs : List Scalar}
    (h : Stored e mem p vs) (hq : q ≤ p)
    (hm : Block.read mem' q (layoutEnd p (vs.map size) - q) =
      Block.read mem q (layoutEnd p (vs.map size) - q)) : Stored e mem' p vs := by
  apply h.of_occupied
  intro i hi
  obtain ⟨hle, hlt⟩ := hi.bounds pos_of_mem_sizes
  have hin (m : List UInt8) :
      m[i]? = (Block.read m q (layoutEnd p (vs.map size) - q))[i - q]? := by
    rw [Block.read, List.getElem?_take_of_lt (by omega), List.getElem?_drop]
    congr 1
    omega
  rw [hin, hm, ← hin]

/-- The bytes of the layout of scalars from `p` on. -/
structure Laid (e : Endian) (p : Nat) (vs : List Scalar) (bs : List UInt8) : Prop where
  length_eq : bs.length = layoutEnd p (vs.map size) - p
  stored : ∃ mem, Stored e mem p vs ∧ Block.read mem p (layoutEnd p (vs.map size) - p) = bs

/-- Scalars put behind what is written. -/
theorem putAll_laid {e : Endian} {b : Buffer UInt8} {vs : List Scalar} (hw : Writing b)
    (hr : layoutEnd b.pos (vs.map size) ≤ b.capacity)
    (hn : layoutEnd b.pos (vs.map size) ≤ 2 ^ 31) :
    ∃ b' bs, putAll e { buf := b, good := true } vs = { buf := b', good := true } ∧ b'.Valid ∧
      b'.pos = layoutEnd b.pos (vs.map size) ∧ b'.written = b.written ++ bs ∧
      Laid e b.pos vs bs := by
  have hnarrow := narrow_of_layoutEnd pos_of_mem_sizes hn
  have hgood : (putAll e { buf := b, good := true } vs).good = true :=
    good_putAll rfl hw hnarrow hr
  obtain ⟨-, hst, hpos, hw', hkeep⟩ := putAll_narrow (c := { buf := b, good := true }) hw
    hnarrow hgood
  obtain ⟨c, hc⟩ : ∃ c, putAll e { buf := b, good := true } vs = c := ⟨_, rfl⟩
  rw [hc] at hgood hst hpos hw' hkeep
  dsimp only at hst hpos hkeep
  have hle := @le_layoutEnd (vs.map size) b.pos pos_of_mem_sizes
  have hcap : c.buf.pos ≤ c.buf.mem.length := Nat.le_trans hw'.pos_le (Nat.le_of_eq hw'.lim_eq)
  refine ⟨c.buf, Block.read c.buf.mem b.pos (layoutEnd b.pos (vs.map size) - b.pos), ?_,
    ⟨hw'.pos_le, Nat.le_of_eq hw'.lim_eq⟩, hpos, ?_, ?_, c.buf.mem, hst, rfl⟩
  · rw [hc, ← hgood]
  · have hsplit : c.buf.pos = b.pos + (layoutEnd b.pos (vs.map size) - b.pos) := by omega
    rw [Buffer.written, hsplit, List.take_add, hkeep]
    rfl
  · apply Block.length_read
    omega

/-- Scalars got from another buffer, at the place at which they were put. -/
theorem getAll_laid {e : Endian} {b : Buffer UInt8} {vs olds : List Scalar} (hb : b.Valid)
    (hl : Laid e b.pos vs b.unread) (hn : layoutEnd b.pos (vs.map size) ≤ 2 ^ 31)
    (ho : List.Forall₂ SameType olds vs) :
    ∃ b', getAll e { buf := b, good := true } olds =
      (vs.map size, vs, { buf := b', good := true }) := by
  rcases hl with ⟨hlen, mem, hst, hread⟩
  rw [hb.length_unread] at hlen
  have hle := @le_layoutEnd (vs.map size) b.pos pos_of_mem_sizes
  have hpos := hb.pos_le
  rw [Buffer.unread, hlen] at hread
  have hstored : Stored e b.mem b.pos vs := hst.of_read (Nat.le_refl _) hread.symm
  exact ⟨_, getAll_spec hb.lim_le hstored (narrow_of_layoutEnd pos_of_mem_sizes hn) (by omega) ho⟩

/-- There is a byte for every scalar. -/
theorem Laid.ne_nil {e : Endian} {p : Nat} {vs : List Scalar} {bs : List UInt8}
    (h : Laid e p vs bs) (hv : vs ≠ []) : bs ≠ [] := by
  rintro rfl
  have hlen := h.length_eq
  cases vs with
  | nil => exact hv rfl
  | cons v vs =>
    have h0 := v.width_size.pos
    have hle := le_roundUp p h0
    have hend := @le_layoutEnd (vs.map size) (roundUp v.size p + v.size) pos_of_mem_sizes
    rw [List.map_cons, layoutEnd, List.length_nil] at hlen
    omega

end Scalar
end CtrlrFx.Data
