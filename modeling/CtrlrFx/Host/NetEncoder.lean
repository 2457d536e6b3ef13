import CtrlrFx.Data.Payload

/-!
# The encoder of the .NET host

`host/dotNet/CtrlrFx/BinNativeEncoder.cs` on the buffer of `host/dotNet/CtrlrFx/Buffer.cs`. It puts
values where `BinNativeEncoder` of the target puts them, but its buffer drops the bytes that it has
no room for, and nothing tells the caller.
-/

namespace CtrlrFx.Host
open Base Data

/-- `Buffer<byte>`; `host/dotNet/CtrlrFx/Buffer.cs:12–14`. An array of bytes has at most
`NetBuffer.maxLength` of them, so that an `int` holds every position and what is added to it. -/
structure NetBuffer where
  arr : List UInt8
  pos : Nat
  lim : Nat
  deriving DecidableEq, Repr

namespace NetBuffer

def maxLength : Nat := 0x7fffffc7

/-- `host/dotNet/CtrlrFx/Buffer.cs:21–25`. -/
def new (n : Nat) : NetBuffer := { arr := List.replicate n 0, pos := 0, lim := n }

/-- Moves the position up to a multiple of `n`, if that is not behind the limit;
`host/dotNet/CtrlrFx/Buffer.cs:173–185`. -/
def align (b : NetBuffer) (n : Nat) : NetBuffer :=
  let rem := b.pos % n
  if rem ≠ 0 then
    let p := b.pos + n - rem
    if p ≤ b.lim then { b with pos := p } else b
  else b

/-- Stores a byte below the limit, or drops it; `host/dotNet/CtrlrFx/Buffer.cs:187–192`. -/
def put (b : NetBuffer) (v : UInt8) : NetBuffer :=
  if b.pos < b.lim then { b with arr := b.arr.set b.pos v, pos := b.pos + 1 } else b

/-- `host/dotNet/CtrlrFx/BinNativeEncoder.cs:45–51`. -/
def putBytes (b : NetBuffer) : List UInt8 → NetBuffer
  | [] => b
  | x :: xs => putBytes (b.put x) xs

/-- What was put, at the start of the buffer of a receiver. -/
def deliver (b : NetBuffer) (other : Buffer UInt8) : Buffer UInt8 :=
  { other with mem := Block.write other.mem 0 (b.arr.take b.pos), pos := 0, lim := b.pos }

theorem align_of_le {b : NetBuffer} {n : Nat} (hn : 0 < n) (h : roundUp n b.pos ≤ b.lim) :
    b.align n = { b with pos := roundUp n b.pos } := by
  have hup := Base.roundUp_eq b.pos hn
  have hmod := Nat.mod_lt b.pos hn
  unfold align
  dsimp only
  by_cases hr : b.pos % n = 0
  · rw [if_neg (not_not.mpr hr), hup, if_pos hr]
  · have hp : b.pos + n - b.pos % n = roundUp n b.pos := by
      rw [hup, if_neg hr]
      omega
    rw [if_pos hr, hp, if_pos h]

/-- Bytes for which there is room are stored one after another. -/
theorem putBytes_of_le {b : NetBuffer} {bs : List UInt8} (h : b.pos + bs.length ≤ b.lim) :
    b.putBytes bs = { b with arr := Block.write b.arr b.pos bs, pos := b.pos + bs.length } := by
  induction bs generalizing b with
  | nil => rfl
  | cons x xs ih =>
    rw [List.length_cons] at h
    have hput : b.put x = { b with arr := b.arr.set b.pos x, pos := b.pos + 1 } :=
      if_pos (by omega)
    rw [putBytes, hput, ih (by dsimp only; omega), List.length_cons, Nat.add_assoc,
      Nat.add_comm 1]
    rfl

/-- A buffer in which the position is not behind the limit. -/
structure Sound (n : Nat) (b : NetBuffer) : Prop where
  pos_le : b.pos ≤ b.lim
  lim_eq : b.lim = n
  length_eq : b.arr.length = n

theorem sound_new (n : Nat) : Sound n (new n) :=
  ⟨Nat.zero_le _, rfl, List.length_replicate⟩

theorem Sound.align {n : Nat} {b : NetBuffer} (h : Sound n b) (k : Nat) :
    Sound n (b.align k) := by
  unfold NetBuffer.align
  dsimp only
  split
  · split
    · next hle => exact ⟨hle, h.lim_eq, h.length_eq⟩
    · exact h
  · exact h

theorem Sound.putBytes {n : Nat} {b : NetBuffer} (h : Sound n b) (bs : List UInt8) :
    Sound n (b.putBytes bs) := by
  induction bs generalizing b with
  | nil => exact h
  | cons x xs ih =>
    apply ih
    unfold put
    split
    · next hlt => exact ⟨hlt, h.lim_eq, by rw [List.length_set, h.length_eq]⟩
    · exact h

end NetBuffer

/-- What the encoder can put, signed numbers as the words of their bits. -/
inductive NetVal where
  | bool (v : Bool)
  | char (c : UInt16)
  | byte (v : UInt8)
  | int16 (v : UInt16)
  | int32 (v : UInt32)
  deriving DecidableEq, Repr

namespace NetVal

/-- What the target gets for it. Of a character only the low byte is sent. -/
def scalar : NetVal → Scalar
  | bool v => .bool v
  | char c => .u8 c.toUInt8
  | byte v => .u8 v
  | int16 v => .u16 v
  | int32 v => .u32 v

/-- `PutBool`, `PutChar`, `PutByte`, `PutInt16`, `PutUInt16`, `PutInt32` and `PutUInt32`, each of
which returns zero; `host/dotNet/CtrlrFx/BinNativeEncoder.cs:53–92`. -/
def put (e : Endian) (b : NetBuffer) : NetVal → NetBuffer
  | bool v => b.put (if v then 1 else 0)
  | char c => b.put c.toUInt8
  | byte v => b.put v
  | int16 v => (b.align 2).putBytes (NativeRep.bytes e v)
  | int32 v => (b.align 4).putBytes (NativeRep.bytes e v)

/-- Puts values in order. -/
def putAll (e : Endian) (b : NetBuffer) : List NetVal → NetBuffer
  | [] => b
  | v :: vs => putAll e (v.put e b) vs

theorem put_eq (e : Endian) (b : NetBuffer) (v : NetVal) :
    v.put e b = (b.align v.scalar.size).putBytes (v.scalar.bytes e) := by
  have hone : b.align 1 = b := by
    unfold NetBuffer.align
    rw [Nat.mod_one]
    rfl
  cases v with
  | bool v =>
    change b.put _ = (b.align 1).putBytes _
    rw [hone]
    rfl
  | char c =>
    change b.put _ = (b.align 1).putBytes _
    rw [hone]
    rfl
  | byte v =>
    change b.put _ = (b.align 1).putBytes _
    rw [hone]
    rfl
  | int16 v => rfl
  | int32 v => rfl

theorem sound_putAll {e : Endian} {n : Nat} {b : NetBuffer} (h : b.Sound n) (vs : List NetVal) :
    (putAll e b vs).Sound n := by
  induction vs generalizing b with
  | nil => exact h
  | cons v vs ih =>
    apply ih
    rw [put_eq]
    exact (h.align _).putBytes _

end NetVal

/-- The two buffers after values were put into them, with what was in front of that: the positions
are the same, and the bytes of the values. Bytes between these are what they were. -/
structure NetBuffer.Mirrors (b₀ b : NetBuffer) (c₀ c : Buffer UInt8) (sizes : List Nat) : Prop where
  pos_eq : b.pos = c.pos
  values : ∀ i, Occupied c₀.pos sizes i → b.arr[i]? = c.mem[i]?
  padding : ∀ i, ¬Occupied c₀.pos sizes i → b.arr[i]? = b₀.arr[i]? ∧ c.mem[i]? = c₀.mem[i]?

namespace NetVal

variable {e : Endian}

/-- As long as there is room both encoders do the same. -/
theorem putAll_mirrors {b : NetBuffer} {c : BufCodec} {vs : List NetVal}
    (hb : b.Sound c.buf.capacity) (hpos : b.pos = c.buf.pos) (hg : c.good = true)
    (hw : Scalar.Writing c.buf)
    (hn : Scalar.Narrow c.buf.pos ((vs.map scalar).map Scalar.size))
    (hr : layoutEnd c.buf.pos ((vs.map scalar).map Scalar.size) ≤ c.buf.capacity) :
    b.Mirrors (putAll e b vs) c.buf (Scalar.putAll e c (vs.map scalar)).buf
      ((vs.map scalar).map Scalar.size) := by
  induction vs generalizing b c with
  | nil => exact ⟨hpos, fun _ h ↦ h.elim, fun _ _ ↦ ⟨rfl, rfl⟩⟩
  | cons v vs ih =>
    rw [List.map_cons, List.map_cons] at hn hr ⊢
    rcases hn with ⟨hp, hns⟩
    rw [layoutEnd] at hr
    have hfit : roundUp v.scalar.size c.buf.pos + v.scalar.size ≤ c.buf.capacity :=
      Nat.le_trans (le_layoutEnd _ Scalar.pos_of_mem_sizes) hr
    have hput : (v.scalar.put e c).2.good = true := Scalar.good_put hg hw hp hfit
    obtain ⟨-, hbuf⟩ := Scalar.put_narrow hw hp hput
    obtain ⟨hpos', hcap⟩ := Scalar.pos_put hw hp hput
    have hlim := hb.lim_eq
    have hput' : v.put e b = { b with
        arr := Block.write b.arr (roundUp v.scalar.size c.buf.pos) (v.scalar.bytes e)
        pos := roundUp v.scalar.size c.buf.pos + v.scalar.size } := by
      rw [put_eq, NetBuffer.align_of_le v.scalar.width_size.pos (by rw [hpos]; omega), hpos,
        NetBuffer.putBytes_of_le (by rw [Scalar.length_bytes]; dsimp only; omega),
        Scalar.length_bytes]
    have hsound : (v.put e b).Sound (v.scalar.put e c).2.buf.capacity := by
      rw [hcap, put_eq]
      exact (hb.align _).putBytes _
    rw [← hpos'] at hns hr
    rw [← hcap] at hr
    have hm := ih hsound (by rw [hput', hpos']) hput (Scalar.writing_put hw hp hput) hns hr
    -- what the first put has done to a cell
    have hcell (i : Nat) : (v.put e b).arr[i]? = if roundUp v.scalar.size c.buf.pos ≤ i ∧
          i < roundUp v.scalar.size c.buf.pos + v.scalar.size then
        (v.scalar.bytes e)[i - roundUp v.scalar.size c.buf.pos]? else b.arr[i]? := by
      have hin : roundUp v.scalar.size c.buf.pos + (v.scalar.bytes e).length ≤ b.arr.length := by
        rw [Scalar.length_bytes, hb.length_eq]
        exact hfit
      rw [hput', Block.getElem?_write _ _ _ hin, Scalar.length_bytes]
    have hcell' (i : Nat) : (v.scalar.put e c).2.buf.mem[i]? =
        if roundUp v.scalar.size c.buf.pos ≤ i ∧
          i < roundUp v.scalar.size c.buf.pos + v.scalar.size then
        (v.scalar.bytes e)[i - roundUp v.scalar.size c.buf.pos]? else c.buf.mem[i]? := by
      have hin : roundUp v.scalar.size c.buf.pos + (v.scalar.bytes e).length ≤
          c.buf.mem.length := by
        rw [Scalar.length_bytes]
        exact hfit
      rw [hbuf, Block.getElem?_write _ _ _ hin, Scalar.length_bytes]
    rw [putAll, Scalar.putAll]
    refine ⟨hm.pos_eq, fun i hi ↦ ?_, fun i hi ↦ ?_⟩
    · by_cases hrest : Occupied (v.scalar.put e c).2.buf.pos ((vs.map scalar).map Scalar.size) i
      · exact hm.values i hrest
      · have hfirst := hi.resolve_right (by rwa [hpos'] at hrest)
        obtain ⟨hnet, htarget⟩ := hm.padding i hrest
        rw [hnet, htarget, hcell, hcell', if_pos hfirst, if_pos hfirst]
    · rcases not_or.mp hi with ⟨hfirst, hrest⟩
      rw [← hpos'] at hrest
      obtain ⟨hnet, htarget⟩ := hm.padding i hrest
      rw [hnet, htarget, hcell, hcell', if_neg hfirst, if_neg hfirst]
      exact ⟨rfl, rfl⟩

end NetVal

/-! ### What a decoder needs -/

section

variable {e : Endian}

/-- Below two gigabytes alignment is right. -/
theorem dvd_or_lt {n p : Nat} (h : p < 2 ^ 31) : n ∣ p ∨ p % 2 ^ 32 < 2 ^ 31 := by
  right
  rw [Nat.mod_eq_of_lt (by omega)]
  exact h

theorem get_codec (c : BufCodec) (old : Scalar) :
    (old.get e c).2.2 = (c.getRaw old.size).2.2 := by
  cases old <;> rfl

theorem getAll_of_bad {c : BufCodec} (h : c.good = false) (olds : List Scalar) :
    (Scalar.getAll e c olds).2.2 = c := by
  induction olds with
  | nil => rfl
  | cons old olds ih =>
    change (Scalar.getAll e (old.get e c).2.2 olds).2.2 = c
    rw [get_codec, BufCodec.getRaw_of_bad h]
    exact ih

/-- A get that succeeds has found its bytes below the limit. -/
theorem getRaw_good {b : Buffer UInt8} {n : Nat} (hn : Buffer.Width n) (hb : b.Valid)
    (hl : b.lim < 2 ^ 31) (hg : (BufCodec.getRaw { buf := b, good := true } n).2.2.good = true) :
    roundUp n b.pos + n ≤ b.lim := by
  have hpos := hb.pos_le
  have hcap := hb.lim_le
  have hp := dvd_or_lt (n := n) (Nat.lt_of_le_of_lt hpos hl)
  have h0 := hn.pos
  by_contra hfit
  have hlt : (b.align n).lim < (b.align n).pos + n := by
    rw [Buffer.lim_align, Buffer.align_eq b hn.dvd hp]
    split
    · next hd =>
      rw [roundUp_of_dvd h0 hd] at hfit
      omega
    · split
      · dsimp only
        omega
      · have hup := roundUp_lt b.pos h0
        omega
  have hgot : BufCodec.getRaw { buf := b, good := true } n = _ :=
    BufCodec.getRaw_of_good rfl (Buffer.getBlock_of_lt hlt)
  rw [hgot] at hg
  have hz : 0 = n := beq_iff_eq.mp hg
  omega

theorem layoutEnd_le_of_getAll {b : Buffer UInt8} {olds : List Scalar} (hb : b.Valid)
    (hl : b.lim < 2 ^ 31)
    (hg : (Scalar.getAll e { buf := b, good := true } olds).2.2.good = true) :
    layoutEnd b.pos (olds.map Scalar.size) ≤ b.lim := by
  induction olds generalizing b with
  | nil => exact hb.pos_le
  | cons old olds ih =>
    change (Scalar.getAll e (old.get e { buf := b, good := true }).2.2 olds).2.2.good = true at hg
    rw [get_codec] at hg
    have hget : (BufCodec.getRaw { buf := b, good := true } old.size).2.2.good = true := by
      by_contra hbad
      rw [Bool.not_eq_true] at hbad
      rw [getAll_of_bad hbad, hbad] at hg
      cases hg
    have hfit := getRaw_good old.width_size hb hl hget
    have hp := dvd_or_lt (n := old.size) (Nat.lt_of_le_of_lt hb.pos_le hl)
    rw [BufCodec.getRaw_of_le old.width_size hp hb.lim_le hfit] at hg
    exact ih (b := { b with pos := roundUp old.size b.pos + old.size }) ⟨hfit, hb.lim_le⟩ hl hg

/-- An encoder that stays good had room for all values. -/
theorem layoutEnd_le_of_putAll {c : BufCodec} {vs : List Scalar} (hw : Scalar.Writing c.buf)
    (hl : c.buf.capacity < 2 ^ 31) (hg : (Scalar.putAll e c vs).good = true) :
    layoutEnd c.buf.pos (vs.map Scalar.size) ≤ c.buf.capacity := by
  induction vs generalizing c with
  | nil => exact hw.pos_le.trans_eq hw.lim_eq
  | cons v vs ih =>
    have hput : (v.put e c).2.good = true := Scalar.good_of_putAll hg
    have hpos_le := hw.pos_le.trans_eq hw.lim_eq
    have hp := dvd_or_lt (n := v.size) (p := c.buf.pos) (by omega)
    obtain ⟨hpos, hcap⟩ := Scalar.pos_put hw hp hput
    have hrest := ih (Scalar.writing_put hw hp hput) (by rwa [hcap]) hg
    rwa [hpos, hcap] at hrest

theorem sameType_self (vs : List Scalar) : List.Forall₂ Scalar.SameType vs vs := by
  rw [List.forall₂_same]
  intro v _
  cases v <;> trivial

end

/-- What the encoder of the host has put decodes on the target if and only if the encoder of the
target had room for it in a buffer of the same capacity, whatever there was in the memory of that;
and then both have put the same values into the same places. -/
theorem netEncoder_decodes_iff (e : Endian) {fresh : List UInt8}
    (hn : fresh.length ≤ NetBuffer.maxLength) (vs : List NetVal) {other : Buffer UInt8}
    (ho : fresh.length ≤ other.capacity) :
    let b₀ := NetBuffer.new fresh.length
    let c₀ : BufCodec := { buf := .alloc fresh, good := true }
    let b := NetVal.putAll e b₀ vs
    let c := Scalar.putAll e c₀ (vs.map NetVal.scalar)
    (Scalar.Decodes e (b.deliver other) (vs.map NetVal.scalar) ↔ c.good = true) ∧
      (c.good = true → b₀.Mirrors b c₀.buf c.buf ((vs.map NetVal.scalar).map Scalar.size)) := by
  intro b₀ c₀ b c
  have hmax : fresh.length < 2 ^ 31 := Nat.lt_of_le_of_lt hn (by decide)
  have hw : Scalar.Writing c₀.buf := ⟨Nat.zero_le _, rfl⟩
  have hsound : b.Sound fresh.length := NetVal.sound_putAll (NetBuffer.sound_new _) vs
  have hbpos : b.pos ≤ fresh.length := hsound.pos_le.trans_eq hsound.lim_eq
  have hlim : (b.deliver other).lim ≤ (b.deliver other).capacity := by
    change b.pos ≤ (Block.write other.mem 0 (b.arr.take b.pos)).length
    rw [Block.length_write]
    exact hbpos.trans ho
  by_cases hfit : layoutEnd 0 ((vs.map NetVal.scalar).map Scalar.size) ≤ fresh.length
  · have hnarrow : Scalar.Narrow 0 ((vs.map NetVal.scalar).map Scalar.size) :=
      Scalar.narrow_of_layoutEnd Scalar.pos_of_mem_sizes (by omega)
    have hg : c.good = true := Scalar.good_putAll (e := e) rfl hw hnarrow hfit
    have hm : b₀.Mirrors b c₀.buf c.buf _ :=
      NetVal.putAll_mirrors (NetBuffer.sound_new _) rfl rfl hw hnarrow hfit
    refine ⟨iff_of_true ?_ hg, fun _ ↦ hm⟩
    -- the bytes of the values are in the memory of the other buffer, where they are decoded
    obtain ⟨-, hstored, hend, -, -⟩ := Scalar.putAll_narrow hw hnarrow hg
    have hrest : Scalar.Stored e b.arr 0 (vs.map NetVal.scalar) := hstored.of_occupied hm.values
    have hlen : (b.arr.take b.pos).length = b.pos := by
      rw [List.length_take, hsound.length_eq, Nat.min_eq_left hbpos]
    have hend' : layoutEnd 0 ((vs.map NetVal.scalar).map Scalar.size) = b.pos :=
      hend.symm.trans hm.pos_eq.symm
    have hcopy := Block.take_write_end other.mem 0 (b.arr.take b.pos)
      (by rw [hlen, Nat.zero_add]; exact hbpos.trans ho)
    rw [hlen, Nat.zero_add, List.take_zero, List.nil_append] at hcopy
    exact Scalar.decodes_of_stored rfl hlim (hrest.congr (by rw [hend']; exact hcopy)) hnarrow hend'
  · have hbad : ¬c.good = true := by
      intro hg
      exact hfit (layoutEnd_le_of_putAll hw hmax hg)
    refine ⟨iff_of_false (fun hd ↦ hfit ?_) hbad, fun hg ↦ absurd hg hbad⟩
    rcases hd (vs.map NetVal.scalar) (sameType_self _) with ⟨b', hget, -⟩
    have hvalid : (b.deliver other).Valid := ⟨Nat.zero_le _, hlim⟩
    have hle := layoutEnd_le_of_getAll hvalid (Nat.lt_of_le_of_lt hbpos hmax) (by rw [hget])
    exact Nat.le_trans hle hbpos

/-- Five bytes for a byte and a word: the word is lost. -/
theorem netEncoder_decodes_iff_short :
    let b₀ := NetBuffer.new 5
    let c₀ : BufCodec := { buf := .alloc (List.replicate 5 0xff), good := true }
    let b := NetVal.putAll .little b₀ [.byte 1, .int32 2]
    let c := Scalar.putAll .little c₀ ([.byte 1, .int32 2].map NetVal.scalar)
    c.good = false ∧ (Scalar.Decodes .little (b.deliver (.alloc (List.replicate 8 0)))
        ([.byte 1, .int32 2].map NetVal.scalar) ↔ c.good = true) := by
  intro b₀ c₀ b c
  have hg : c.good = false := by decide
  have hn : (List.replicate 5 (0xff : UInt8)).length ≤ NetBuffer.maxLength := by decide
  exact ⟨hg, (netEncoder_decodes_iff .little hn _ (by decide)).1⟩

end CtrlrFx.Host
