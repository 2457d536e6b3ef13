import CtrlrFx.Data.SwapCodec

/-!
# Swapped against native encodings

When the bytes that a swap encoder writes are those of a native encoder on a host of the other
byte order. The native encoder moves to a multiple of each value's size, `CtrlrFx/BufCodec.h:149`;
the functions that write words backwards, `src/data/BufCodec.cpp:10–47`, do not.
-/

namespace CtrlrFx.Data
open Base

namespace Buffer

variable {T : Type}

/-- Where an item has room below the limit, alignment leaves the position alone if it is a
multiple, or if it narrows to a negative `int` and the multiple after the next lies past the
memory. -/
theorem align_eq_self_iff {b : Buffer T} {n : Nat} (hn : n ∣ 2 ^ 32) (hl : b.lim ≤ b.capacity)
    (hr : b.pos + n ≤ b.lim) :
    b.align n = b ↔
      n ∣ b.pos ∨ (2 ^ 31 ≤ b.pos % 2 ^ 32 ∧ b.capacity ≤ roundUp n b.pos + n) := by
  have hup := roundUp_lt b.pos (pos_of_dvd hn)
  have hle := le_roundUp b.pos (pos_of_dvd hn)
  by_cases hd : n ∣ b.pos
  · rw [align_eq b hn (.inl hd), if_pos hd]
    exact iff_of_true rfl (.inl hd)
  · have hmoved {q : Nat} (hq : b.pos < q) : { b with pos := q } ≠ b := fun he ↦ by
      have hpos := congrArg Buffer.pos he
      dsimp only at hpos
      omega
    have hlt : b.pos < roundUp n b.pos := by
      apply Nat.lt_of_le_of_ne hle
      intro he
      exact hd (he ▸ dvd_roundUp n b.pos)
    by_cases hp : b.pos % 2 ^ 32 < 2 ^ 31
    · rw [align_eq b hn (.inr hp), if_neg hd, if_pos (by omega)]
      apply iff_of_false (hmoved hlt)
      rintro (h | h)
      · exact hd h
      · omega
    · rw [align_eq_of_negative b hn hd (Nat.le_of_not_lt hp)]
      split
      · apply iff_of_false (hmoved (by omega))
        rintro (h | h)
        · exact hd h
        · omega
      · next hc =>
        apply iff_of_true rfl
        right
        exact ⟨Nat.le_of_not_lt hp, Nat.le_of_not_lt hc⟩

end Buffer

namespace BufCodec

/-- A good codec after bytes were copied to the position of a buffer. -/
def after (b : Buffer UInt8) (bs : List UInt8) : BufCodec :=
  { buf := { b with mem := Block.write b.mem b.pos bs, pos := b.pos + bs.length }, good := true }

@[simp] theorem lim_after (b : Buffer UInt8) (bs : List UInt8) :
    (after b bs).buf.lim = b.lim := rfl

@[simp] theorem pos_after (b : Buffer UInt8) (bs : List UInt8) :
    (after b bs).buf.pos = b.pos + bs.length := rfl

@[simp] theorem capacity_after (b : Buffer UInt8) (bs : List UInt8) :
    (after b bs).buf.capacity = b.capacity := Block.length_write _ _ _

/-- Two copies are one. -/
theorem after_after (b : Buffer UInt8) (xs ys : List UInt8) :
    after (after b xs).buf ys = after b (xs ++ ys) := by
  simp only [after, Block.write_append, List.length_append, Nat.add_assoc]

/-- A native put where the position stays writes there. -/
theorem putRaw_in_place {b : Buffer UInt8} {n : Nat} {bs : List UInt8} (hb : bs.length = n)
    (ha : b.align n = b) (h : b.pos + n ≤ b.lim) :
    putRaw { buf := b, good := true } n bs = (n, after b bs) := by
  subst hb
  unfold putRaw
  rw [if_pos rfl, ha]
  dsimp only
  rw [Buffer.putBlock_of_le h]
  simp only [beq_self_eq_true, after]

/-- A native get where the position stays takes the bytes that follow. -/
theorem getRaw_in_place {b : Buffer UInt8} {n : Nat} (ha : b.align n = b)
    (h : b.pos + n ≤ b.lim) :
    getRaw { buf := b, good := true } n = (n, Block.read b.mem b.pos n,
      { buf := { b with pos := b.pos + n }, good := true }) := by
  unfold getRaw
  rw [if_pos rfl, ha]
  dsimp only
  rw [Buffer.getBlock_of_le h]
  simp only [beq_self_eq_true]

end BufCodec

namespace Scalar
open BufCodec

/-- A swap encoder writes a scalar where the position is, as the other host has it. -/
theorem putSwap_of_room (e : Endian) {b : Buffer UInt8} {v : Scalar}
    (h : b.pos + v.size ≤ b.lim) :
    v.putSwap e { buf := b, good := true } = (v.size, after b (v.bytes e.flip)) := by
  have hlen := v.length_bytes e
  have hbyte {bs : List UInt8} (hb : bs.length = 1) (h1 : b.pos + 1 ≤ b.lim) :=
    putRaw_in_place hb b.align_one h1
  have hword {bs : List UInt8} (hb : b.pos + bs.length ≤ b.lim) :
      BufCodec.putSwap { buf := b, good := true } bs = (bs.length, after b bs.reverse) := by
    rw [BufCodec.putSwap_of_le hb, after, List.length_reverse]
  rw [bytes_flip]
  cases v with
  | u8 v => exact hbyte rfl h
  | bool v => exact hbyte rfl h
  | u16 v =>
    rw [← hlen] at h ⊢
    exact hword h
  | u32 v =>
    rw [← hlen] at h ⊢
    exact hword h
  | u64 v =>
    rw [← hlen] at h ⊢
    exact hword h

/-- Variables of a type take the scalar whose bytes are there backwards. -/
theorem getSwap_of_room (e : Endian) (junk : UInt8) {b : Buffer UInt8} {v old : Scalar}
    (ho : SameType old v) (hl : b.lim ≤ b.capacity) (h : b.pos + v.size ≤ b.lim)
    (hr : Block.read b.mem b.pos v.size = v.bytes e.flip) :
    old.getSwap e junk { buf := b, good := true } =
      (v.size, v, { buf := { b with pos := b.pos + v.size }, good := true }) := by
  have hbyte {bs : List UInt8} (h1 : b.pos + 1 ≤ b.lim)
      (hr1 : Block.read b.mem b.pos 1 = bs) :
      getRaw { buf := b, good := true } 1 =
        (1, bs, { buf := { b with pos := b.pos + 1 }, good := true }) := by
    rw [getRaw_in_place b.align_one h1, hr1]
  have hword {α : Type} [NativeRep α] (w x : α)
      (hw : b.pos + NativeRep.size α ≤ b.lim)
      (hrw : Block.read b.mem b.pos (NativeRep.size α) = (NativeRep.bytes e w).reverse) :
      getSwapped e { buf := b, good := true } x = (NativeRep.size α, w,
        { buf := { b with pos := b.pos + NativeRep.size α }, good := true }) := by
    have hx := NativeRep.length_bytes e x
    unfold getSwapped
    rw [getSwap_of_le hl (by rwa [hx]), hx, hrw, List.reverse_reverse]
    simp only [NativeRep.value_bytes]
  rw [bytes_flip] at hr
  cases v with
  | u8 v =>
    cases old <;> try exact ho.elim
    have hg := get_of_getRaw (e := e) (v := v) (α := UInt8) ‹UInt8› (hbyte h hr)
    simp only [getSwap, hg]
    rfl
  | u16 v =>
    cases old <;> try exact ho.elim
    simp only [getSwap, getSwap2, hword v _ h hr]
    rfl
  | u32 v =>
    cases old <;> try exact ho.elim
    simp only [getSwap, getSwap4, hword v _ h hr]
    rfl
  | u64 v =>
    cases old <;> try exact ho.elim
    simp only [getSwap, getSwap8, hword v _ h hr]
    rfl
  | bool v =>
    cases old <;> try exact ho.elim
    have hg := get_of_getRaw (e := e) (v := (if v then 1 else 0 : UInt8)) junk (hbyte h hr)
    simp only [getSwap, getSwapBool, hg]
    cases v <;> rfl

/-- Values of these sizes, one right behind the other from `p` on, lie where a native codec in
`cap` bytes of memory takes them: at multiples of their sizes, or where it fails to move. -/
def Packed (cap p : Nat) : List Nat → Prop
  | [] => True
  | n :: ns =>
    (n ∣ p ∨ (2 ^ 31 ≤ p % 2 ^ 32 ∧ cap ≤ roundUp n p + n)) ∧ Packed cap (p + n) ns

/-- A native put that leaves the codec good had room, and wrote behind the alignment. -/
theorem put_of_good {e : Endian} {b : Buffer UInt8} {v : Scalar}
    (h : (v.put e { buf := b, good := true }).2.good = true) :
    (b.align v.size).pos + v.size ≤ b.lim ∧
      v.put e { buf := b, good := true } = (v.size, after (b.align v.size) (v.bytes e)) := by
  rw [put_eq] at h ⊢
  obtain ⟨-, hr, he⟩ := putRaw_good v.width_size.pos (v.length_bytes e) h
  rw [Buffer.lim_align] at hr
  refine ⟨hr, ?_⟩
  rw [he, after, length_bytes]

/-- Where values are packed, the swap encoder does what the other host's native encoder does. -/
theorem putSwap_eq_put (e : Endian) {b : Buffer UInt8} {v : Scalar}
    (ha : b.align v.size = b)
    (h : (v.put e.flip { buf := b, good := true }).2.good = true) :
    v.putSwap e { buf := b, good := true } = v.put e.flip { buf := b, good := true } := by
  obtain ⟨hr, hput⟩ := put_of_good h
  rw [ha] at hr hput
  rw [putSwap_of_room e hr, hput]

/-- Offsets at which both encoders write are the same exactly if the values are packed. -/
theorem swapStarts_eq_iff (e : Endian) {b : Buffer UInt8} (hl : b.lim ≤ b.capacity)
    {vs : List Scalar} (hfit : (putAll e.flip { buf := b, good := true } vs).good = true) :
    swapStarts e { buf := b, good := true } vs = starts e.flip { buf := b, good := true } vs ↔
      Packed b.capacity b.pos (vs.map size) := by
  induction vs generalizing b with
  | nil => exact iff_of_true rfl trivial
  | cons v vs ih =>
    obtain ⟨hra, hput⟩ := put_of_good (good_of_putAll hfit)
    have hle := b.le_pos_align v.size
    have hr : b.pos + v.size ≤ b.lim := by omega
    rw [List.map_cons, Packed, ← Buffer.align_eq_self_iff v.width_size.dvd hl hr]
    rw [putAll, hput] at hfit
    rw [swapStarts, starts, putSwap_of_room e hr, hput, List.cons.injEq, pos_after, pos_after,
      length_bytes, Nat.add_sub_cancel, Nat.add_sub_cancel]
    by_cases ha : b.align v.size = b
    · rw [ha] at hfit ⊢
      have hcap := capacity_after b (v.bytes e.flip)
      have hpos : (after b (v.bytes e.flip)).buf.pos = b.pos + v.size := by
        rw [pos_after, length_bytes]
      have htail := ih (b := (after b (v.bytes e.flip)).buf) (by rwa [hcap, lim_after]) hfit
      rw [hcap, hpos] at htail
      exact and_congr (iff_of_true rfl rfl) htail
    · apply iff_of_false
      · rintro ⟨h, -⟩
        exact ha (Buffer.align_eq_self_of_pos h.symm)
      · rintro ⟨h, -⟩
        exact ha h

/-- The bytes of scalars one right behind the other. -/
def packedBytes (e : Endian) (vs : List Scalar) : List UInt8 := vs.flatMap (·.bytes e)

theorem packedBytes_cons (e : Endian) (v : Scalar) (vs : List Scalar) :
    packedBytes e (v :: vs) = v.bytes e ++ packedBytes e vs := List.flatMap_cons

/-- Packed values that fit are written one right behind the other. -/
theorem putAll_packed (e : Endian) {b : Buffer UInt8} (hl : b.lim ≤ b.capacity)
    (hb : b.pos ≤ b.lim) {vs : List Scalar}
    (hfit : (putAll e { buf := b, good := true } vs).good = true)
    (hp : Packed b.capacity b.pos (vs.map size)) :
    putAll e { buf := b, good := true } vs = after b (packedBytes e vs) ∧
      b.pos + (packedBytes e vs).length ≤ b.lim := by
  induction vs generalizing b with
  | nil => exact ⟨rfl, hb⟩
  | cons v vs ih =>
    obtain ⟨hra, hput⟩ := put_of_good (good_of_putAll hfit)
    have hle := b.le_pos_align v.size
    have hr : b.pos + v.size ≤ b.lim := by omega
    have ha := (Buffer.align_eq_self_iff v.width_size.dvd hl hr).mpr hp.1
    have hlen := v.length_bytes e
    rw [putAll, hput, ha] at hfit ⊢
    have hcap := capacity_after b (v.bytes e)
    have hpos : (after b (v.bytes e)).buf.pos = b.pos + v.size := by rw [pos_after, hlen]
    have htail : Packed (after b (v.bytes e)).buf.capacity (after b (v.bytes e)).buf.pos
        (vs.map size) := by
      rw [hcap, hpos]
      exact hp.2
    obtain ⟨h1, h2⟩ := ih (b := (after b (v.bytes e)).buf) (by rwa [hcap, lim_after])
      (by rwa [hpos, lim_after]) hfit htail
    rw [lim_after, hpos] at h2
    rw [packedBytes_cons, ← after_after, List.length_append, hlen]
    exact ⟨h1, by omega⟩

/-- A swap encoder writes any values that have room one right behind the other. -/
theorem putSwapAll_of_room (e : Endian) {b : Buffer UInt8} {vs : List Scalar}
    (h : b.pos + (packedBytes e.flip vs).length ≤ b.lim) :
    putSwapAll e { buf := b, good := true } vs = after b (packedBytes e.flip vs) := by
  induction vs generalizing b with
  | nil => rfl
  | cons v vs ih =>
    have hlen := v.length_bytes e.flip
    rw [packedBytes_cons, List.length_append, hlen] at h
    have htail := ih (b := (after b (v.bytes e.flip)).buf) (by
      rw [pos_after, lim_after, hlen]
      omega)
    rw [putSwapAll, putSwap_of_room e (by omega), packedBytes_cons, ← after_after]
    exact htail

/-- What begins with the bytes of packed values begins with those of the first, behind which are
those of the others. -/
theorem read_packed {e : Endian} {mem : List UInt8} {p : Nat} {v : Scalar} {vs : List Scalar}
    (hl : p + (packedBytes e (v :: vs)).length ≤ mem.length)
    (hr : Block.read mem p (packedBytes e (v :: vs)).length = packedBytes e (v :: vs)) :
    Block.read mem p v.size = v.bytes e ∧
      Block.read mem (p + v.size) (packedBytes e vs).length = packedBytes e vs := by
  have hlen := v.length_bytes e
  rw [packedBytes_cons, List.length_append, hlen] at hl hr
  rw [Block.read_add] at hr
  apply List.append_inj hr
  rw [Block.length_read _ _ _ (by omega), hlen]

/-- A native decoder takes packed values from where they lie. -/
theorem getAll_packed {e : Endian} {b : Buffer UInt8} {vs olds : List Scalar}
    (hl : b.lim ≤ b.capacity) (hp : Packed b.capacity b.pos (vs.map size))
    (hr : b.pos + (packedBytes e vs).length ≤ b.lim)
    (hm : Block.read b.mem b.pos (packedBytes e vs).length = packedBytes e vs)
    (ho : List.Forall₂ SameType olds vs) :
    getAll e { buf := b, good := true } olds = (vs.map size, vs,
      { buf := { b with pos := b.pos + (packedBytes e vs).length }, good := true }) := by
  induction vs generalizing b olds with
  | nil =>
    cases ho
    rfl
  | cons v vs ih =>
    cases ho with
    | cons hty ho =>
      rename_i old olds
      have hlen := v.length_bytes e
      obtain ⟨h1, h2⟩ := read_packed (Nat.le_trans hr hl) hm
      rw [packedBytes_cons, List.length_append, hlen] at hr ⊢
      have hroom : b.pos + v.size ≤ b.lim := by omega
      have ha := (Buffer.align_eq_self_iff v.width_size.dvd hl hroom).mpr hp.1
      have hraw := getRaw_in_place ha hroom
      rw [h1] at hraw
      have htail := ih (b := { b with pos := b.pos + v.size }) hl hp.2
        (by dsimp only; omega) h2 ho
      simp only [getAll, get_eq hty hraw, htail, List.map_cons, Nat.add_assoc]

/-- A swap decoder takes values from wherever they lie one right behind the other. -/
theorem getSwapAll_of_room {e : Endian} (junk : UInt8) {b : Buffer UInt8}
    {vs olds : List Scalar} (hl : b.lim ≤ b.capacity)
    (hr : b.pos + (packedBytes e.flip vs).length ≤ b.lim)
    (hm : Block.read b.mem b.pos (packedBytes e.flip vs).length = packedBytes e.flip vs)
    (ho : List.Forall₂ SameType olds vs) :
    getSwapAll e junk { buf := b, good := true } olds = (vs.map size, vs,
      { buf := { b with pos := b.pos + (packedBytes e.flip vs).length }, good := true }) := by
  induction vs generalizing b olds with
  | nil =>
    cases ho
    rfl
  | cons v vs ih =>
    cases ho with
    | cons hty ho =>
      rename_i old olds
      have hlen := v.length_bytes e.flip
      obtain ⟨h1, h2⟩ := read_packed (Nat.le_trans hr hl) hm
      rw [packedBytes_cons, List.length_append, hlen] at hr ⊢
      have hget := getSwap_of_room e junk hty hl (by omega) h1
      have htail := ih (b := { b with pos := b.pos + v.size }) hl (by dsimp only; omega) h2 ho
      simp only [getSwapAll, hget, htail, List.map_cons, Nat.add_assoc]

/-! ### Mirrored encodings -/

/-- What was put into a buffer from the position of `b` on, to be got from there. -/
def delivered (b b' : Buffer UInt8) : Buffer UInt8 := { b' with pos := b.pos, lim := b'.pos }

/-- A swap decoder on `b` gets the scalars, each with its size, and ends good at the limit,
whatever the variables held. -/
def SwapDecodes (e : Endian) (b : Buffer UInt8) (vs : List Scalar) : Prop :=
  ∀ junk olds, List.Forall₂ SameType olds vs →
    ∃ b', getSwapAll e junk { buf := b, good := true } olds =
      (vs.map size, vs, { buf := b', good := true }) ∧ b'.pos = b'.lim

/-- What a swap encoder is for: in a buffer it leaves what a native encoder on a host of the
other byte order leaves there. -/
structure Mirrors (e : Endian) (b : Buffer UInt8) (vs : List Scalar) : Prop where
  offsets : swapStarts e { buf := b, good := true } vs =
    starts e.flip { buf := b, good := true } vs
  same : (putSwapAll e { buf := b, good := true } vs).buf =
    (putAll e.flip { buf := b, good := true } vs).buf
  /-- That host's decoder gets the values. -/
  read : Decodes e.flip (delivered b (putSwapAll e { buf := b, good := true } vs).buf) vs
  /-- A swap decoder gets what that host's encoder wrote. -/
  readBack : SwapDecodes e (delivered b (putAll e.flip { buf := b, good := true } vs).buf) vs

/-- Values that fit behind the position of a buffer are mirrored exactly if they are packed. -/
theorem mirrors_iff (e : Endian) {b : Buffer UInt8} (hb : b.Valid) (vs : List Scalar)
    (hfit : (putAll e.flip { buf := b, good := true } vs).good = true) :
    Mirrors e b vs ↔ Packed b.capacity b.pos (vs.map size) := by
  have hoff := swapStarts_eq_iff e hb.lim_le hfit
  constructor
  · intro hm
    exact hoff.mp hm.offsets
  · intro hp
    obtain ⟨hput, hroom⟩ := putAll_packed e.flip hb.lim_le hb.pos_le hfit hp
    have hswap := putSwapAll_of_room e hroom
    have hin : b.pos + (packedBytes e.flip vs).length ≤ b.mem.length :=
      Nat.le_trans hroom hb.lim_le
    have hread := Block.read_write b.mem b.pos (packedBytes e.flip vs) hin
    have hcap : (delivered b (after b (packedBytes e.flip vs)).buf).capacity = b.capacity :=
      capacity_after b (packedBytes e.flip vs)
    have hle : (delivered b (after b (packedBytes e.flip vs)).buf).lim ≤
        (delivered b (after b (packedBytes e.flip vs)).buf).capacity := by
      rw [hcap]
      exact hin
    refine ⟨hoff.mpr hp, ?_, ?_, ?_⟩
    · rw [hswap, hput]
    · rw [hswap]
      intro olds ho
      exact ⟨_, getAll_packed hle (by rw [hcap]; exact hp) (Nat.le_refl _) hread ho, rfl⟩
    · rw [hput]
      intro junk olds ho
      exact ⟨_, getSwapAll_of_room junk hle (Nat.le_refl _) hread ho, rfl⟩

/-- A word of four and a word of two, written by a little-endian host for a big-endian one. -/
theorem mirrors_iff_two :
    (Buffer.alloc (List.replicate 8 (0 : UInt8))).Valid ∧
    (putAll .big { buf := .alloc (List.replicate 8 0), good := true }
      [.u32 0x01020304, .u16 0x0506]).good = true ∧
    (Mirrors .little (.alloc (List.replicate 8 0)) [.u32 0x01020304, .u16 0x0506] ↔
      Packed 8 0 [4, 2]) := by
  have hv := Buffer.valid_alloc (List.replicate 8 (0 : UInt8))
  have hg : (putAll .big { buf := .alloc (List.replicate 8 0), good := true }
      [.u32 0x01020304, .u16 0x0506]).good = true := by decide
  exact ⟨hv, hg, mirrors_iff .little hv _ hg⟩

/-- A truth value and a word of four behind it fit in eight bytes; the swap encoder puts the word
at offset 1, a native encoder at 4. -/
theorem not_mirrors_bool_word :
    (putAll .big { buf := .alloc (List.replicate 8 0), good := true }
      [.bool true, .u32 0x01020304]).good = true ∧
    (putSwapAll .little { buf := .alloc (List.replicate 8 0), good := true }
      [.bool true, .u32 0x01020304]).buf.written = [1, 1, 2, 3, 4] ∧
    (putAll .big { buf := .alloc (List.replicate 8 0), good := true }
      [.bool true, .u32 0x01020304]).buf.written = [1, 0, 0, 0, 1, 2, 3, 4] ∧
    ¬Mirrors .little (.alloc (List.replicate 8 0)) [.bool true, .u32 0x01020304] := by
  have hoff : swapStarts .little { buf := .alloc (List.replicate 8 0), good := true }
      [.bool true, .u32 0x01020304] ≠
        starts .big { buf := .alloc (List.replicate 8 0), good := true }
          [.bool true, .u32 0x01020304] := by decide
  refine ⟨by decide, by decide, by decide, ?_⟩
  intro hm
  exact hoff hm.offsets

end Scalar
end CtrlrFx.Data
