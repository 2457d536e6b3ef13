import CtrlrFx.Base.Layout
import CtrlrFx.Data.Buffer
import Mathlib.Data.List.Forall2

/-!
# Native binary codecs

`CtrlrFx/BufCodec.h`: values are put into and taken from a byte buffer in the representation
of the host, each after the position was moved up to a multiple of the value's size. A codec
that could not transfer a value goes bad and transfers nothing more.
-/

namespace CtrlrFx.Data
open Base

/-- Members of a codec with the buffer it refers to; `CtrlrFx/BufCodec.h:45–46`. -/
structure BufCodec where
  buf : Buffer UInt8
  good : Bool
  deriving DecidableEq, Repr

namespace BufCodec

/-- `CtrlrFx/BufCodec.h:83–85`. -/
def clear (c : BufCodec) : BufCodec := { buf := c.buf.clear, good := true }

/-- `CtrlrFx/BufCodec.h:76–78`. -/
def rewind (c : BufCodec) : BufCodec := { buf := c.buf.rewind, good := true }

/-- Puts the `n` bytes of a value; `CtrlrFx/BufCodec.h:144–155`. -/
def putRaw (c : BufCodec) (n : Nat) (bs : List UInt8) : Nat × BufCodec :=
  if c.good then
    let r := (c.buf.align n).putBlock bs
    (r.1, { buf := r.2, good := r.1 == n })
  else (0, c)

/-- Gets the `n` bytes of a value; `CtrlrFx/BufCodec.h:236–247`. -/
def getRaw (c : BufCodec) (n : Nat) : Nat × List UInt8 × BufCodec :=
  if c.good then
    let r := (c.buf.align n).getBlock n
    (r.1, r.2.1, { buf := r.2.2, good := r.1 == n })
  else (0, [], c)

variable (e : Endian) {α : Type} [NativeRep α]

/-- `BinNativeEncoder::put`, with its result; `CtrlrFx/BufCodec.h:144–155`. -/
def put (c : BufCodec) (v : α) : Nat × BufCodec :=
  c.putRaw (NativeRep.size α) (NativeRep.bytes e v)

/-- `BinNativeEncoder::put_bool`; `CtrlrFx/BufCodec.h:126`. -/
def putBool (c : BufCodec) (b : Bool) : Nat × BufCodec :=
  c.put e (if b then 1 else 0 : UInt8)

/-- `BinNativeEncoder::put` of an array of bytes, which are the only items the buffer takes,
behind their number as a `cnt_t`. The result of its last put is kept from the caller;
`CtrlrFx/BufCodec.h:157–171`. -/
def putArr (c : BufCodec) (arr : List UInt8) : Nat × BufCodec :=
  if c.good then
    let r := c.put e (UInt16.ofNat arr.length)
    if r.1 ≠ NativeRep.size UInt16 then (0, r.2)
    else
      let q := (r.2.buf.align 1).putBlock arr
      (0, { buf := q.2, good := toInt32 q.1 == toInt32 arr.length })
  else (0, c)

/-- `BinNativeDecoder::get` into a variable that holds `old`, with the result and what the
variable then holds; `CtrlrFx/BufCodec.h:236–247`. -/
def get (c : BufCodec) (old : α) : Nat × α × BufCodec :=
  let r := c.getRaw (NativeRep.size α)
  (r.1, if r.1 = NativeRep.size α then NativeRep.value e r.2.1 else old, r.2.2)

/-- `BinNativeDecoder::get_bool`; the variable is set to false where nothing was read.
`CtrlrFx/BufCodec.h:269–275`. -/
def getBool (c : BufCodec) : Nat × Bool × BufCodec :=
  let r := c.get e (0 : UInt8)
  (r.1, r.2.1 != 0, r.2.2)

/-- `BinNativeDecoder::get` of an array of at most `n` bytes, with the result and the bytes that
the array takes from its start; `CtrlrFx/BufCodec.h:249–267`. -/
def getArr (c : BufCodec) (n : Nat) : Nat × List UInt8 × BufCodec :=
  if c.good then
    -- the count is read into a variable that holds nothing yet
    let r := c.get e (0 : UInt16)
    if r.1 ≠ NativeRep.size UInt16 then (0, [], r.2.2)
    else
      let m := min n r.2.1.toNat
      let q := (r.2.2.buf.align 1).getBlock m
      (q.1, q.2.1, { buf := q.2.2, good := toInt32 q.1 == toInt32 m })
  else (0, [], c)

end BufCodec

/-- A scalar as the word of its bits, or a truth value. -/
inductive Scalar where
  | u8 (v : UInt8)
  | u16 (v : UInt16)
  | u32 (v : UInt32)
  | u64 (v : UInt64)
  | bool (v : Bool)
  deriving DecidableEq, Repr

namespace Scalar

/-- Bytes a scalar takes. -/
def size : Scalar → Nat
  | u8 _ | bool _ => 1
  | u16 _ => 2
  | u32 _ => 4
  | u64 _ => 8

/-- The bytes of a scalar in memory. -/
def bytes (e : Endian) : Scalar → List UInt8
  | u8 v => NativeRep.bytes e v
  | u16 v => NativeRep.bytes e v
  | u32 v => NativeRep.bytes e v
  | u64 v => NativeRep.bytes e v
  | bool v => NativeRep.bytes e (if v then 1 else 0 : UInt8)

/-- Scalars of one type. -/
def SameType : Scalar → Scalar → Prop
  | u8 _, u8 _ | u16 _, u16 _ | u32 _, u32 _ | u64 _, u64 _ | bool _, bool _ => True
  | _, _ => False

/-- Puts a scalar with the overload for its type. -/
def put (e : Endian) (c : BufCodec) : Scalar → Nat × BufCodec
  | u8 v => c.put e v
  | u16 v => c.put e v
  | u32 v => c.put e v
  | u64 v => c.put e v
  | bool v => c.putBool e v

/-- Gets a scalar into a variable, with the overload for its type. -/
def get (e : Endian) (c : BufCodec) : Scalar → Nat × Scalar × BufCodec
  | u8 v => let r := c.get e v; (r.1, u8 r.2.1, r.2.2)
  | u16 v => let r := c.get e v; (r.1, u16 r.2.1, r.2.2)
  | u32 v => let r := c.get e v; (r.1, u32 r.2.1, r.2.2)
  | u64 v => let r := c.get e v; (r.1, u64 r.2.1, r.2.2)
  | bool _ => let r := c.getBool e; (r.1, bool r.2.1, r.2.2)

/-- Puts scalars in order. -/
def putAll (e : Endian) (c : BufCodec) : List Scalar → BufCodec
  | [] => c
  | v :: vs => putAll e (v.put e c).2 vs

/-- Offsets at which these puts store their bytes. -/
def starts (e : Endian) (c : BufCodec) : List Scalar → List Nat
  | [] => []
  | v :: vs => ((v.put e c).2.buf.pos - v.size) :: starts e (v.put e c).2 vs

/-- Gets scalars in order into a list of variables, with the results. -/
def getAll (e : Endian) (c : BufCodec) : List Scalar → List Nat × List Scalar × BufCodec
  | [] => ([], [], c)
  | v :: vs =>
    let r := v.get e c
    let rs := getAll e r.2.2 vs
    (r.1 :: rs.1, r.2.1 :: rs.2.1, rs.2.2)

end Scalar

/-! ### One alignment -/

namespace Buffer

/-- Sizes of scalars. -/
def Width (n : Nat) : Prop := n = 1 ∨ n = 2 ∨ n = 4 ∨ n = 8

theorem Width.pos {n : Nat} (h : Width n) : 0 < n := by
  unfold Width at h
  omega

/-- They divide the range of an `int`, so that wrapping does not change remainders. -/
theorem Width.dvd {n : Nat} (h : Width n) : n ∣ 2 ^ 32 := by
  rcases h with rfl | rfl | rfl | rfl <;> decide

theorem pos_of_dvd {n : Nat} (hn : n ∣ 2 ^ 32) : 0 < n :=
  Nat.pos_of_dvd_of_pos hn (Nat.two_pow_pos 32)

/-- Narrowing to an `int` keeps the residue. -/
theorem toInt32_emod (p : Nat) {n : Nat} (hn : n ∣ 2 ^ 32) :
    toInt32 p % (n : Int) = ((p % n : Nat) : Int) := by
  have hq : ∃ q : Int, toInt32 p - p = 2 ^ 32 * q := by
    unfold toInt32
    split
    · exact ⟨-((p : Int) / 2 ^ 32), by omega⟩
    · exact ⟨-((p : Int) / 2 ^ 32 + 1), by omega⟩
  have hd : (n : Int) ∣ 2 ^ 32 := Int.natCast_dvd_natCast.mpr hn
  rcases hq with ⟨q, hq⟩
  rw [Int.natCast_emod, Int.emod_eq_emod_iff_emod_sub_eq_zero, hq]
  exact Int.emod_eq_zero_of_dvd (Dvd.dvd.mul_right hd q)

/-- Remainder of a position narrowed to an `int`. -/
theorem tmod_toInt32 (p : Nat) {n : Nat} (hn : n ∣ 2 ^ 32) :
    (toInt32 p).tmod n =
      if n ∣ p then 0
      else if p % 2 ^ 32 < 2 ^ 31 then ((p % n : Nat) : Int) else ((p % n : Nat) : Int) - n := by
  have hr := toInt32_emod p hn
  have hz : (n : Int) ∣ toInt32 p ↔ n ∣ p := by
    rw [Int.dvd_iff_emod_eq_zero, hr, Nat.dvd_iff_mod_eq_zero]
    exact Int.natCast_eq_zero
  by_cases hd : n ∣ p
  · rw [if_pos hd]
    exact Int.tmod_eq_zero_of_dvd (hz.mpr hd)
  · rw [if_neg hd, Int.tmod_eq_emod, hr]
    have ht : 0 ≤ toInt32 p ↔ p % 2 ^ 32 < 2 ^ 31 := by
      unfold toInt32
      split <;> omega
    by_cases hp : p % 2 ^ 32 < 2 ^ 31
    · rw [if_pos hp, if_pos (.inl (ht.mpr hp)), Int.natCast_zero, Int.sub_zero]
    · rw [if_neg hp, if_neg, Int.natAbs_natCast]
      rw [hz, ht]
      exact not_or.mpr ⟨hp, hd⟩

variable {T : Type}

theorem roundUp_eq {n p : Nat} (hn : n ∣ 2 ^ 32) (hd : ¬n ∣ p) :
    roundUp n p = p + n - p % n := by
  have h0 := pos_of_dvd hn
  have hm := Nat.mod_lt p h0
  rw [Base.roundUp_eq p h0, if_neg fun h ↦ hd (Nat.dvd_of_mod_eq_zero h)]
  omega

/-- At a position that is aligned, or whose low 32 bits are a nonnegative `int`, alignment
goes to the next multiple or, when the memory ends before, nowhere. -/
theorem align_eq (b : Buffer T) {n : Nat} (hn : n ∣ 2 ^ 32)
    (hp : n ∣ b.pos ∨ b.pos % 2 ^ 32 < 2 ^ 31) :
    b.align n = if n ∣ b.pos then b
      else if roundUp n b.pos < b.capacity then { b with pos := roundUp n b.pos } else b := by
  unfold align
  rw [tmod_toInt32 b.pos hn]
  by_cases hd : n ∣ b.pos
  · simp [hd]
  · have hp' := hp.resolve_left hd
    have hlt : b.pos % n < n := Nat.mod_lt _ (pos_of_dvd hn)
    have hne : ((b.pos % n : Nat) : Int) ≠ 0 := fun h0 ↦ hd (Nat.dvd_of_mod_eq_zero (by omega))
    have hr : b.pos + ((n : Int) - ((b.pos % n : Nat) : Int)).toNat = roundUp n b.pos := by
      rw [roundUp_eq hn hd]
      omega
    simp only [if_neg hd, if_pos hp', if_pos hne, hr]

/-- At any other position it goes one multiple too far, or nowhere. -/
theorem align_eq_of_negative (b : Buffer T) {n : Nat} (hn : n ∣ 2 ^ 32) (hd : ¬n ∣ b.pos)
    (hp : 2 ^ 31 ≤ b.pos % 2 ^ 32) :
    b.align n = if roundUp n b.pos + n < b.capacity then { b with pos := roundUp n b.pos + n }
      else b := by
  unfold align
  rw [tmod_toInt32 b.pos hn]
  have hlt : b.pos % n < n := Nat.mod_lt _ (pos_of_dvd hn)
  have hne : ((b.pos % n : Nat) : Int) - n ≠ 0 := by omega
  have hr : b.pos + ((n : Int) - (((b.pos % n : Nat) : Int) - n)).toNat = roundUp n b.pos + n := by
    rw [roundUp_eq hn hd]
    omega
  simp only [if_neg hd, if_neg (Nat.not_lt.mpr hp), if_pos hne, hr]

/-- Where a value goes that is put or got below the limit `l`: to the next multiple of its
size. -/
theorem pos_align_of_le {b : Buffer T} {n : Nat} (hn : Width n)
    (hp : n ∣ b.pos ∨ b.pos % 2 ^ 32 < 2 ^ 31) (hr : roundUp n b.pos + n ≤ b.capacity) :
    b.align n = { b with pos := roundUp n b.pos } := by
  have h0 := hn.pos
  rw [align_eq b hn.dvd hp]
  split
  · next hd => rw [roundUp_of_dvd h0 hd]
  · rw [if_pos (by omega)]

end Buffer

namespace BufCodec

/-- A bad codec does nothing. -/
theorem putRaw_of_bad {c : BufCodec} (h : c.good = false) (n : Nat) (bs : List UInt8) :
    c.putRaw n bs = (0, c) := if_neg (by simp [h])

/-- A put that leaves the codec good has stored its bytes behind the alignment. -/
theorem putRaw_good {c : BufCodec} {n : Nat} {bs : List UInt8} (hn : 0 < n)
    (hb : bs.length = n) (h : (c.putRaw n bs).2.good = true) :
    c.good = true ∧ (c.buf.align n).pos + n ≤ (c.buf.align n).lim ∧
      c.putRaw n bs = (n, { buf := { c.buf.align n with
        mem := Block.write (c.buf.align n).mem (c.buf.align n).pos bs
        pos := (c.buf.align n).pos + n }, good := true }) := by
  cases hg : c.good with
  | false =>
    rw [putRaw_of_bad hg, hg] at h
    cases h
  | true =>
    unfold putRaw at h ⊢
    rw [if_pos hg] at h ⊢
    by_cases hr : (c.buf.align n).pos + bs.length ≤ (c.buf.align n).lim
    · rw [Buffer.putBlock_of_le hr]
      refine ⟨rfl, by rwa [hb] at hr, ?_⟩
      simp only [hb, beq_self_eq_true]
    · rw [Buffer.putBlock_of_lt (Nat.lt_of_not_le hr)] at h
      simp only [beq_iff_eq] at h
      omega

/-- A get at an aligned place below the limit copies the bytes that are there. -/
theorem getRaw_of_le {b : Buffer UInt8} {n : Nat} (hn : Buffer.Width n)
    (hp : n ∣ b.pos ∨ b.pos % 2 ^ 32 < 2 ^ 31) (hl : b.lim ≤ b.capacity)
    (hr : roundUp n b.pos + n ≤ b.lim) :
    getRaw { buf := b, good := true } n = (n, Block.read b.mem (roundUp n b.pos) n,
      { buf := { b with pos := roundUp n b.pos + n }, good := true }) := by
  have ha := Buffer.pos_align_of_le hn hp (by omega)
  unfold getRaw
  dsimp only
  rw [if_pos rfl, ha, Buffer.getBlock_of_le hr]
  simp only [beq_self_eq_true]

/-- A variable takes the value whose bytes were got. -/
theorem get_of_getRaw {e : Endian} {α : Type} [NativeRep α] {c c' : BufCodec} {v : α} (old : α)
    (h : c.getRaw (NativeRep.size α) = (NativeRep.size α, NativeRep.bytes e v, c')) :
    c.get e old = (NativeRep.size α, v, c') := by
  unfold get
  rw [h]
  simp only [if_true, NativeRep.value_bytes]

theorem getBool_of_getRaw {e : Endian} {c c' : BufCodec} {b : Bool}
    (h : c.getRaw 1 = (1, NativeRep.bytes e (if b then 1 else 0 : UInt8), c')) :
    c.getBool e = (1, b, c') := by
  unfold getBool
  have hg : c.get e (0 : UInt8) = _ := get_of_getRaw 0 h
  rw [hg]
  cases b <;> rfl

/-- A bad decoder gets nothing. -/
theorem getRaw_of_bad {c : BufCodec} (h : c.good = false) (n : Nat) :
    c.getRaw n = (0, [], c) := if_neg (by simp [h])

/-- A good one aligns and gets a block, which is named so that the alignment is not evaluated. -/
theorem getRaw_of_good {c : BufCodec} (h : c.good = true) {n : Nat}
    {r : Nat × List UInt8 × Buffer UInt8} (hr : (c.buf.align n).getBlock n = r) :
    c.getRaw n = (r.1, r.2.1, { buf := r.2.2, good := r.1 == n }) := by
  rw [← hr]
  exact if_pos h

/-- A get leaves the buffer as it was, or aligned with what the block get made of it. -/
theorem buf_getRaw (c : BufCodec) (n : Nat) :
    (c.getRaw n).2.2.buf = c.buf ∨
      (c.getRaw n).2.2.buf = ((c.buf.align n).getBlock n).2.2 := by
  cases hg : c.good with
  | false =>
    left
    rw [getRaw_of_bad hg]
  | true =>
    obtain ⟨r, hr⟩ : ∃ r, (c.buf.align n).getBlock n = r := ⟨_, rfl⟩
    right
    rw [getRaw_of_good hg hr, hr]

theorem capacity_getRaw (c : BufCodec) (n : Nat) :
    (c.getRaw n).2.2.buf.capacity = c.buf.capacity := by
  rcases buf_getRaw c n with h | h
  · rw [h]
  · rw [h, Buffer.capacity_getBlock, Buffer.capacity_align]

theorem lim_getRaw (c : BufCodec) (n : Nat) : (c.getRaw n).2.2.buf.lim = c.buf.lim := by
  rcases buf_getRaw c n with h | h
  · rw [h]
  · rw [h, Buffer.lim_getBlock, Buffer.lim_align]

/-- A put leaves the buffer as it was, or aligned with what the block put made of it. -/
theorem buf_putRaw (c : BufCodec) (n : Nat) (bs : List UInt8) :
    (c.putRaw n bs).2.buf = c.buf ∨ (c.putRaw n bs).2.buf = ((c.buf.align n).putBlock bs).2 := by
  obtain ⟨r, hr⟩ : ∃ r, (c.buf.align n).putBlock bs = r := ⟨_, rfl⟩
  by_cases hg : c.good = true
  · have he : c.putRaw n bs = (r.1, { buf := r.2, good := r.1 == n }) := by
      rw [← hr]
      exact if_pos hg
    right
    rw [he, hr]
  · have he : c.putRaw n bs = (0, c) := if_neg hg
    left
    rw [he]

theorem capacity_putRaw (c : BufCodec) (n : Nat) (bs : List UInt8) :
    (c.putRaw n bs).2.buf.capacity = c.buf.capacity := by
  rcases buf_putRaw c n bs with h | h
  · rw [h]
  · rw [h, Buffer.capacity_putBlock, Buffer.capacity_align]

/-- A put leaves the memory in place, whether or not it succeeds. -/
theorem capacity_put (e : Endian) {α : Type} [NativeRep α] (c : BufCodec) (v : α) :
    (c.put e v).2.buf.capacity = c.buf.capacity := capacity_putRaw c _ _

/-- An array put leaves the buffer as it was, as the put of its length made it, or with the
array behind that. -/
theorem buf_putArr (e : Endian) (c : BufCodec) (arr : List UInt8) :
    (c.putArr e arr).2.buf = c.buf ∨
      (c.putArr e arr).2.buf = (c.put e (UInt16.ofNat arr.length)).2.buf ∨
      (c.putArr e arr).2.buf =
        (((c.put e (UInt16.ofNat arr.length)).2.buf.align 1).putBlock arr).2 := by
  obtain ⟨r, hr⟩ : ∃ r, c.put e (UInt16.ofNat arr.length) = r := ⟨_, rfl⟩
  obtain ⟨q, hq⟩ : ∃ q, (r.2.buf.align 1).putBlock arr = q := ⟨_, rfl⟩
  rw [hr, hq]
  by_cases hg : c.good = true
  · by_cases hn : r.1 ≠ NativeRep.size UInt16
    · have he : c.putArr e arr = (0, r.2) := by
        rw [putArr, if_pos hg, hr]
        exact if_pos hn
      right
      left
      rw [he]
    · have he : c.putArr e arr =
          (0, { buf := q.2, good := toInt32 q.1 == toInt32 arr.length }) := by
        rw [putArr, if_pos hg, hr, ← hq]
        exact if_neg hn
      right
      right
      rw [he]
  · have he : c.putArr e arr = (0, c) := if_neg hg
    left
    rw [he]

theorem capacity_putArr (e : Endian) (c : BufCodec) (arr : List UInt8) :
    (c.putArr e arr).2.buf.capacity = c.buf.capacity := by
  rcases buf_putArr e c arr with h | h | h
  · rw [h]
  · rw [h, capacity_put]
  · rw [h, Buffer.capacity_putBlock, Buffer.capacity_align, capacity_put]

/-- A get leaves the memory in place, whether or not it succeeds. -/
theorem capacity_get (e : Endian) {α : Type} [NativeRep α] (c : BufCodec) (old : α) :
    (c.get e old).2.2.buf.capacity = c.buf.capacity := capacity_getRaw c _

theorem lim_get (e : Endian) {α : Type} [NativeRep α] (c : BufCodec) (old : α) :
    (c.get e old).2.2.buf.lim = c.buf.lim := lim_getRaw c _

/-- An array get delivers nothing, and leaves the buffer as it was or as the get of the length
made it, or it delivers a block of at most the number asked for. -/
theorem getArr_cases (e : Endian) (c : BufCodec) (n : Nat) :
    ((c.getArr e n).2.1 = [] ∧ ((c.getArr e n).2.2.buf = c.buf ∨
        (c.getArr e n).2.2.buf = (c.get e (0 : UInt16)).2.2.buf)) ∨
      ∃ m, m ≤ n ∧
        (c.getArr e n).2.1 = (((c.get e (0 : UInt16)).2.2.buf.align 1).getBlock m).2.1 ∧
        (c.getArr e n).2.2.buf = (((c.get e (0 : UInt16)).2.2.buf.align 1).getBlock m).2.2 := by
  obtain ⟨r, hr⟩ : ∃ r, c.get e (0 : UInt16) = r := ⟨_, rfl⟩
  rw [hr]
  by_cases hg : c.good = true
  · by_cases hn : r.1 ≠ NativeRep.size UInt16
    · have he : c.getArr e n = (0, [], r.2.2) := by
        rw [getArr, if_pos hg, hr]
        exact if_pos hn
      left
      rw [he]
      exact ⟨rfl, .inr rfl⟩
    · obtain ⟨q, hq⟩ : ∃ q, (r.2.2.buf.align 1).getBlock (min n r.2.1.toNat) = q := ⟨_, rfl⟩
      have he : c.getArr e n = (q.1, q.2.1,
          { buf := q.2.2, good := toInt32 q.1 == toInt32 (min n r.2.1.toNat : Nat) }) := by
        rw [getArr, if_pos hg, hr, ← hq]
        exact if_neg hn
      right
      refine ⟨min n r.2.1.toNat, Nat.min_le_left _ _, ?_, ?_⟩
      · rw [he, hq]
      · rw [he, hq]
  · have he : c.getArr e n = (0, [], c) := if_neg hg
    left
    rw [he]
    exact ⟨rfl, .inl rfl⟩

theorem capacity_getArr (e : Endian) (c : BufCodec) (n : Nat) :
    (c.getArr e n).2.2.buf.capacity = c.buf.capacity := by
  rcases getArr_cases e c n with ⟨-, h | h⟩ | ⟨m, -, -, h⟩
  · rw [h]
  · rw [h, capacity_get]
  · rw [h, Buffer.capacity_getBlock, Buffer.capacity_align, capacity_get]

theorem lim_getArr (e : Endian) (c : BufCodec) (n : Nat) :
    (c.getArr e n).2.2.buf.lim = c.buf.lim := by
  rcases getArr_cases e c n with ⟨-, h | h⟩ | ⟨m, -, -, h⟩
  · rw [h]
  · rw [h, lim_get]
  · rw [h, Buffer.lim_getBlock, Buffer.lim_align, lim_get]

/-! ### Any puts -/

/-- The codecs that put operations make of a codec, whether or not they succeed. -/
inductive Puts (e : Endian) (c : BufCodec) : BufCodec → Prop where
  | refl : Puts e c c
  | put {c' : BufCodec} (n : Nat) (bs : List UInt8) (hbs : bs.length = n) (h : Puts e c c') :
      Puts e c (c'.putRaw n bs).2
  | putArr {c' : BufCodec} (arr : List UInt8) (h : Puts e c c') : Puts e c (c'.putArr e arr).2

theorem writable_putRaw {c : BufCodec} (h : c.buf.Writable) (n : Nat) (bs : List UInt8) :
    (c.putRaw n bs).2.buf.Writable := by
  rcases buf_putRaw c n bs with hb | hb
  · rwa [hb]
  · rw [hb]
    exact (h.align n).putBlock bs

theorem writable_putArr (e : Endian) {c : BufCodec} (h : c.buf.Writable) (arr : List UInt8) :
    (c.putArr e arr).2.buf.Writable := by
  have hput : (c.put e (UInt16.ofNat arr.length)).2.buf.Writable := writable_putRaw h _ _
  rcases buf_putArr e c arr with hb | hb | hb
  · rwa [hb]
  · rwa [hb]
  · rw [hb]
    exact (hput.align 1).putBlock arr

/-- Puts leave the position below the limit, and the limit at the end. -/
theorem Puts.writable {e : Endian} {c c' : BufCodec} (hp : Puts e c c') (h : c.buf.Writable) :
    c'.buf.Writable := by
  induction hp with
  | refl => exact h
  | put n bs _ _ ih => exact writable_putRaw ih n bs
  | putArr arr _ ih => exact writable_putArr e ih arr

/-! ### One aligned transfer -/

variable {e : Endian} {α : Type} [NativeRep α]

/-- A value put at a multiple of its size, where there is room, is appended to what is
written. -/
theorem put_append {b : Buffer UInt8} (hw : Buffer.Width (NativeRep.size α)) (hb : b.Valid)
    (hd : NativeRep.size α ∣ b.pos) (hr : b.pos + NativeRep.size α ≤ b.lim) (v : α) :
    ∃ b', put e { buf := b, good := true } v = (NativeRep.size α, { buf := b', good := true }) ∧
      b'.Valid ∧ b'.pos = b.pos + NativeRep.size α ∧ b'.lim = b.lim ∧
      b'.written = b.written ++ NativeRep.bytes e v := by
  have hlen := NativeRep.length_bytes e v
  have hl : b.lim ≤ b.mem.length := hb.lim_le
  have ha : b.align (NativeRep.size α) = b := by rw [Buffer.align_eq b hw.dvd (.inl hd), if_pos hd]
  refine ⟨{ b with
    mem := Block.write b.mem b.pos (NativeRep.bytes e v)
    pos := b.pos + NativeRep.size α }, ?_, ⟨hr, ?_⟩, rfl, rfl, ?_⟩
  · unfold put putRaw
    rw [if_pos rfl, ha]
    dsimp only
    rw [Buffer.putBlock_of_le (by rwa [hlen]), hlen]
    simp only [beq_self_eq_true]
  · simp only [Buffer.capacity, Block.length_write]
    exact hl
  · have := Block.take_write_end b.mem b.pos (NativeRep.bytes e v) (by omega)
    rwa [hlen] at this

/-- A value whose bytes come next at a multiple of its size is taken off what is unread. -/
theorem get_append {b : Buffer UInt8} {v : α} {rest : List UInt8}
    (hw : Buffer.Width (NativeRep.size α)) (hb : b.Valid) (hd : NativeRep.size α ∣ b.pos)
    (hu : b.unread = NativeRep.bytes e v ++ rest) (old : α) :
    ∃ b', get e { buf := b, good := true } old =
        (NativeRep.size α, v, { buf := b', good := true }) ∧
      b'.Valid ∧ b'.pos = b.pos + NativeRep.size α ∧ b'.unread = rest := by
  have hlen := NativeRep.length_bytes e v
  have hl : b.lim ≤ b.mem.length := hb.lim_le
  have hup := roundUp_of_dvd hw.pos hd
  have hul := hb.length_unread
  have hr : b.pos + NativeRep.size α ≤ b.lim := by
    rw [hu, List.length_append, hlen] at hul
    have := hw.pos
    omega
  have hraw := getRaw_of_le hw (.inl hd) hb.lim_le (by rwa [hup])
  rw [hup] at hraw
  have hsplit : b.unread = Block.read b.mem b.pos (NativeRep.size α) ++
      Block.read b.mem (b.pos + NativeRep.size α) (b.lim - (b.pos + NativeRep.size α)) := by
    rw [Buffer.unread, ← Block.read_add]
    congr 1
    omega
  obtain ⟨h1, h2⟩ := List.append_inj (hsplit.symm.trans hu) (by
    rw [Block.length_read _ _ _ (by omega), hlen])
  rw [h1] at hraw
  exact ⟨_, get_of_getRaw old hraw, ⟨hr, hb.lim_le⟩, rfl, h2⟩

end BufCodec

/-! ### Lists of scalars -/

namespace Scalar

theorem width_size (v : Scalar) : Buffer.Width v.size := by
  unfold Buffer.Width
  cases v <;> simp [size]

theorem length_bytes (e : Endian) (v : Scalar) : (v.bytes e).length = v.size := by
  cases v <;> exact NativeRep.length_bytes _ _

theorem put_eq (e : Endian) (c : BufCodec) (v : Scalar) :
    v.put e c = c.putRaw v.size (v.bytes e) := by
  cases v <;> rfl

/-- A variable of its type takes the scalar whose bytes are there. -/
theorem get_eq {e : Endian} {c c' : BufCodec} {v old : Scalar} (h : SameType old v)
    (hg : c.getRaw v.size = (v.size, v.bytes e, c')) : old.get e c = (v.size, v, c') := by
  cases v with
  | u8 v =>
    cases old <;> try exact h.elim
    have hs : c.getRaw (NativeRep.size UInt8) =
        (NativeRep.size UInt8, NativeRep.bytes e v, c') := hg
    simp only [get, BufCodec.get_of_getRaw _ hs]
    rfl
  | u16 v =>
    cases old <;> try exact h.elim
    have hs : c.getRaw (NativeRep.size UInt16) =
        (NativeRep.size UInt16, NativeRep.bytes e v, c') := hg
    simp only [get, BufCodec.get_of_getRaw _ hs]
    rfl
  | u32 v =>
    cases old <;> try exact h.elim
    have hs : c.getRaw (NativeRep.size UInt32) =
        (NativeRep.size UInt32, NativeRep.bytes e v, c') := hg
    simp only [get, BufCodec.get_of_getRaw _ hs]
    rfl
  | u64 v =>
    cases old <;> try exact h.elim
    have hs : c.getRaw (NativeRep.size UInt64) =
        (NativeRep.size UInt64, NativeRep.bytes e v, c') := hg
    simp only [get, BufCodec.get_of_getRaw _ hs]
    rfl
  | bool v =>
    cases old <;> try exact h.elim
    have hs : c.getRaw 1 = (1, NativeRep.bytes e (if v then 1 else 0 : UInt8), c') := hg
    simp only [get, BufCodec.getBool_of_getRaw hs]
    rfl

theorem putAll_of_bad (e : Endian) {c : BufCodec} (h : c.good = false) (vs : List Scalar) :
    putAll e c vs = c := by
  induction vs with
  | nil => rfl
  | cons v vs ih => rw [putAll, put_eq, BufCodec.putRaw_of_bad h, ih]

/-- A codec good after a list of puts was good before the first and after it. -/
theorem good_of_putAll {e : Endian} {c : BufCodec} {vs : List Scalar}
    (h : (putAll e c vs).good = true) : c.good = true := by
  cases hg : c.good with
  | true => rfl
  | false =>
    rw [putAll_of_bad e hg, hg] at h
    cases h

/-- Every scalar that is not put at a multiple of its size is put below the first `2 ^ 31`
of any `2 ^ 32` bytes. -/
def Narrow (p : Nat) : List Nat → Prop
  | [] => True
  | n :: ns => (n ∣ p ∨ p % 2 ^ 32 < 2 ^ 31) ∧ Narrow (roundUp n p + n) ns

/-- The bytes of the scalars lie where the layout from `p` on places them. -/
def Stored (e : Endian) (mem : List UInt8) (p : Nat) (vs : List Scalar) : Prop :=
  List.Forall₂ (fun v o ↦ Block.read mem o v.size = v.bytes e) vs (layout p (vs.map size))

theorem stored_cons {e : Endian} {mem : List UInt8} {p : Nat} {v : Scalar} {vs : List Scalar} :
    Stored e mem p (v :: vs) ↔ Block.read mem (roundUp v.size p) v.size = v.bytes e ∧
      Stored e mem (roundUp v.size p + v.size) vs := by
  rw [Stored, List.map_cons, layout, List.forall₂_cons, Stored]

/-- Only the bytes of the scalars matter. -/
theorem Stored.of_occupied {e : Endian} {mem mem' : List UInt8} {p : Nat} {vs : List Scalar}
    (h : Stored e mem p vs)
    (hm : ∀ i, Occupied p (vs.map size) i → mem'[i]? = mem[i]?) : Stored e mem' p vs := by
  induction vs generalizing p with
  | nil => exact .nil
  | cons v vs ih =>
    rw [stored_cons] at h ⊢
    rw [List.map_cons] at hm
    refine ⟨?_, ih h.2 fun i hi ↦ hm i (.inr hi)⟩
    rw [← h.1]
    exact Block.read_congr fun j hj ↦ hm j (.inl hj)

theorem pos_of_mem_sizes {vs : List Scalar} : ∀ n ∈ vs.map size, 0 < n := by
  intro n hn
  rcases List.mem_map.mp hn with ⟨v, -, rfl⟩
  exact v.width_size.pos

/-- Only the memory up to the end of the layout matters. -/
theorem Stored.congr {e : Endian} {mem mem' : List UInt8} {p : Nat} {vs : List Scalar}
    (h : Stored e mem p vs) (hm : mem'.take (layoutEnd p (vs.map size)) =
      mem.take (layoutEnd p (vs.map size))) : Stored e mem' p vs := by
  apply h.of_occupied
  intro i hi
  obtain ⟨-, hlt⟩ := hi.bounds pos_of_mem_sizes
  rw [← List.getElem?_take_of_lt hlt, hm, List.getElem?_take_of_lt hlt]

/-- The encoder's buffer, whose limit stays at the end of its memory. -/
structure Writing (b : Buffer UInt8) : Prop where
  pos_le : b.pos ≤ b.lim
  lim_eq : b.lim = b.capacity

/-- One put that leaves the codec good, at a place where alignment is right. -/
theorem put_narrow {e : Endian} {c : BufCodec} {v : Scalar} (hw : Writing c.buf)
    (hp : v.size ∣ c.buf.pos ∨ c.buf.pos % 2 ^ 32 < 2 ^ 31)
    (hg : (v.put e c).2.good = true) :
    roundUp v.size c.buf.pos + v.size ≤ c.buf.capacity ∧
      (v.put e c).2.buf = { c.buf with
        mem := Block.write c.buf.mem (roundUp v.size c.buf.pos) (v.bytes e)
        pos := roundUp v.size c.buf.pos + v.size } := by
  have h0 := v.width_size.pos
  rw [put_eq] at hg ⊢
  obtain ⟨-, hr, he⟩ := BufCodec.putRaw_good h0 (v.length_bytes e) hg
  have hlim := hw.lim_eq
  have hup := roundUp_lt c.buf.pos h0
  -- an alignment refused at the end of the memory would leave no room for the bytes
  have hfit : roundUp v.size c.buf.pos + v.size ≤ c.buf.capacity := by
    rw [Buffer.align_eq _ v.width_size.dvd hp] at hr
    split at hr
    · next hd =>
      rw [roundUp_of_dvd h0 hd]
      omega
    · next hd =>
      split at hr
      · dsimp only at hr
        omega
      · omega
  refine ⟨hfit, ?_⟩
  rw [he, Buffer.pos_align_of_le v.width_size hp hfit]

theorem writing_put {e : Endian} {c : BufCodec} {v : Scalar} (hw : Writing c.buf)
    (hp : v.size ∣ c.buf.pos ∨ c.buf.pos % 2 ^ 32 < 2 ^ 31)
    (hg : (v.put e c).2.good = true) : Writing (v.put e c).2.buf := by
  obtain ⟨hfit, he⟩ := put_narrow hw hp hg
  rw [he]
  have hcap : (Block.write c.buf.mem (roundUp v.size c.buf.pos) (v.bytes e)).length =
      c.buf.capacity := Block.length_write _ _ _
  refine ⟨?_, ?_⟩
  · dsimp only
    rw [hw.lim_eq]
    exact hfit
  · change c.buf.lim = (Block.write _ _ _).length
    rw [hcap, hw.lim_eq]

/-- Puts that all succeed at narrow places store the scalars in their layout. -/
theorem putAll_narrow {e : Endian} {c : BufCodec} {vs : List Scalar} (hw : Writing c.buf)
    (hn : Narrow c.buf.pos (vs.map size)) (hg : (putAll e c vs).good = true) :
    starts e c vs = layout c.buf.pos (vs.map size) ∧
      Stored e (putAll e c vs).buf.mem c.buf.pos vs ∧
      (putAll e c vs).buf.pos = layoutEnd c.buf.pos (vs.map size) ∧
      Writing (putAll e c vs).buf ∧
      (putAll e c vs).buf.mem.take c.buf.pos = c.buf.mem.take c.buf.pos := by
  induction vs generalizing c with
  | nil => exact ⟨rfl, .nil, rfl, hw, rfl⟩
  | cons v vs ih =>
    obtain ⟨hp, hns⟩ := hn
    have hg' : (v.put e c).2.good = true := good_of_putAll hg
    have h0 := v.width_size.pos
    have hle := le_roundUp c.buf.pos h0
    obtain ⟨hfit, he⟩ := put_narrow hw hp hg'
    have hlb := v.length_bytes e
    have hpos : (v.put e c).2.buf.pos = roundUp v.size c.buf.pos + v.size := by rw [he]
    have hmem : (v.put e c).2.buf.mem =
        Block.write c.buf.mem (roundUp v.size c.buf.pos) (v.bytes e) := by rw [he]
    have hin : roundUp v.size c.buf.pos + (v.bytes e).length ≤ c.buf.mem.length := by
      rw [hlb]
      exact hfit
    rw [← hpos] at hns
    obtain ⟨hs, hst, hend, hw', hk⟩ := ih (writing_put hw hp hg') hns hg
    rw [hpos] at hs hst hend hk
    refine ⟨?_, ?_, ?_, hw', ?_⟩
    · rw [starts, List.map_cons, layout, hs, hpos, Nat.add_sub_cancel]
    · rw [stored_cons]
      have hread := Block.read_write c.buf.mem (roundUp v.size c.buf.pos) (v.bytes e) hin
      rw [hlb] at hread
      refine ⟨?_, hst⟩
      rw [putAll, ← Block.read_take _ _ _ _ (Nat.le_refl _), hk,
        Block.read_take _ _ _ _ (Nat.le_refl _), hmem, hread]
    · rw [putAll, List.map_cons, layoutEnd, hend]
    · have hcut := congrArg (List.take c.buf.pos) hk
      rw [List.take_take, List.take_take, Nat.min_eq_left (by omega)] at hcut
      rw [putAll, hcut, hmem, Block.take_write _ _ _ _ hle hin]

/-- Where the offsets are those of the layout, every put was at a narrow place. -/
theorem narrow_of_starts {e : Endian} {c : BufCodec} {vs : List Scalar} (hw : Writing c.buf)
    (hg : (putAll e c vs).good = true)
    (hs : starts e c vs = layout c.buf.pos (vs.map size)) : Narrow c.buf.pos (vs.map size) := by
  induction vs generalizing c with
  | nil => trivial
  | cons v vs ih =>
    have hg' : (v.put e c).2.good = true := good_of_putAll hg
    have h0 := v.width_size.pos
    rw [starts, List.map_cons, layout, List.cons.injEq] at hs
    have hp : v.size ∣ c.buf.pos ∨ c.buf.pos % 2 ^ 32 < 2 ^ 31 := by
      by_contra hnot
      obtain ⟨hd, hlt⟩ := not_or.mp hnot
      have hput := hg'
      rw [put_eq] at hput
      obtain ⟨-, -, he⟩ := BufCodec.putRaw_good h0 (v.length_bytes e) hput
      have hpos : (v.put e c).2.buf.pos = (c.buf.align v.size).pos + v.size := by
        rw [put_eq, he]
      have h1 := hs.1
      rw [hpos, Nat.add_sub_cancel,
        Buffer.align_eq_of_negative _ v.width_size.dvd hd (Nat.le_of_not_lt hlt)] at h1
      split at h1
      · dsimp only at h1
        omega
      · exact hd (h1 ▸ dvd_roundUp _ _)
    obtain ⟨-, he⟩ := put_narrow hw hp hg'
    have hpos : (v.put e c).2.buf.pos = roundUp v.size c.buf.pos + v.size := by rw [he]
    refine ⟨hp, ?_⟩
    have h2 := hs.2
    rw [← hpos] at h2 ⊢
    exact ih (writing_put hw hp hg') hg h2

/-- Gets over a stored layout that ends below the limit deliver the scalars. -/
theorem getAll_spec {e : Endian} {b : Buffer UInt8} {vs olds : List Scalar}
    (hl : b.lim ≤ b.capacity) (hs : Stored e b.mem b.pos vs)
    (hn : Narrow b.pos (vs.map size)) (he : layoutEnd b.pos (vs.map size) ≤ b.lim)
    (ho : List.Forall₂ SameType olds vs) :
    getAll e { buf := b, good := true } olds = (vs.map size, vs,
      { buf := { b with pos := layoutEnd b.pos (vs.map size) }, good := true }) := by
  induction vs generalizing b olds with
  | nil =>
    cases ho
    rfl
  | cons v vs ih =>
    cases ho with
    | cons hty ho =>
      rename_i old olds
      rw [stored_cons] at hs
      rw [List.map_cons, layoutEnd] at he
      have hle := @le_layoutEnd (vs.map size) (roundUp v.size b.pos + v.size) fun n hn ↦ by
        obtain ⟨u, -, rfl⟩ := List.mem_map.mp hn
        exact u.width_size.pos
      have hraw := BufCodec.getRaw_of_le v.width_size hn.1 hl (Nat.le_trans hle he)
      rw [hs.1] at hraw
      have hget := get_eq hty hraw
      have hrest := ih (b := { b with pos := roundUp v.size b.pos + v.size }) hl hs.2 hn.2 he ho
      simp only [getAll, hget, hrest, List.map_cons, layoutEnd]

/-! ### Round trips -/

/-- A decoder on `b` gets the scalars, each with its size, and ends good at the limit,
whatever the variables held. -/
def Decodes (e : Endian) (b : Buffer UInt8) (vs : List Scalar) : Prop :=
  ∀ olds, List.Forall₂ SameType olds vs →
    ∃ b', getAll e { buf := b, good := true } olds =
      (vs.map size, vs, { buf := b', good := true }) ∧ b'.pos = b'.lim

/-- The bytes up to the limit of `b` copied to the start of `other`. -/
def copyTo (b other : Buffer UInt8) : Buffer UInt8 :=
  { other with mem := Block.write other.mem 0 (b.mem.take b.lim), pos := 0, lim := b.lim }

/-- What putting scalars into a cleared buffer is for. -/
structure RoundTrips (e : Endian) (c : BufCodec) (vs : List Scalar) : Prop where
  /-- Each value is put at the next multiple of its size, and its bytes are there. -/
  placed : starts e c.clear vs = layout 0 (vs.map size)
  stored : Stored e (putAll e c.clear vs).buf.mem 0 vs
  flipped : Decodes e (putAll e c.clear vs).buf.flip vs
  copied : ∀ other : Buffer UInt8, (putAll e c.clear vs).buf.pos ≤ other.capacity →
    Decodes e (copyTo (putAll e c.clear vs).buf.flip other) vs

theorem decodes_of_stored {e : Endian} {b : Buffer UInt8} {vs : List Scalar}
    (hp : b.pos = 0) (hl : b.lim ≤ b.capacity) (hs : Stored e b.mem 0 vs)
    (hn : Narrow 0 (vs.map size)) (he : layoutEnd 0 (vs.map size) = b.lim) :
    Decodes e b vs := by
  intro olds ho
  rw [← hp] at hs hn he
  exact ⟨_, getAll_spec hl hs hn (Nat.le_of_eq he) ho, he⟩

/-- If a list of scalars fits its buffer, it makes the round trip just when no scalar is put
at a place that alignment reads as a negative `int`. -/
theorem bufCodec_roundTrips_iff (e : Endian) (c : BufCodec) (vs : List Scalar)
    (hg : (putAll e c.clear vs).good = true) :
    RoundTrips e c vs ↔ Narrow 0 (vs.map size) := by
  have hw : Writing c.clear.buf := ⟨Nat.zero_le _, rfl⟩
  have h0 : c.clear.buf.pos = 0 := rfl
  refine ⟨fun hr ↦ narrow_of_starts hw hg hr.placed, fun hn ↦ ?_⟩
  obtain ⟨hs, hst, hend, hw', -⟩ := putAll_narrow hw hn hg
  rw [h0] at hs hst hend
  have hle : (putAll e c.clear vs).buf.pos ≤ (putAll e c.clear vs).buf.capacity :=
    hw'.lim_eq ▸ hw'.pos_le
  refine ⟨hs, hst, decodes_of_stored rfl hle hst hn hend.symm, fun other ho ↦ ?_⟩
  have hlen : ((putAll e c.clear vs).buf.mem.take (putAll e c.clear vs).buf.pos).length =
      (putAll e c.clear vs).buf.pos := by
    rw [List.length_take]
    exact Nat.min_eq_left hle
  have hcopy : (copyTo (putAll e c.clear vs).buf.flip other).mem.take
      (putAll e c.clear vs).buf.pos =
        (putAll e c.clear vs).buf.mem.take (putAll e c.clear vs).buf.pos := by
    have ht := Block.take_write_end other.mem 0
      ((putAll e c.clear vs).buf.mem.take (putAll e c.clear vs).buf.pos)
      (by rw [hlen, Nat.zero_add]; exact ho)
    rwa [hlen, Nat.zero_add, List.take_zero, List.nil_append] at ht
  refine decodes_of_stored rfl ?_ (hst.congr (by rw [← hend]; exact hcopy)) hn hend.symm
  change (putAll e c.clear vs).buf.pos ≤ (Block.write _ _ _).length
  rw [Block.length_write]
  exact ho

/-- The first two values of the unit tests, with a truth value behind them, in a buffer of
sixteen bytes; `UnitTests/data/BufCodecTest/BufCodecTest.cpp:63–97`. -/
theorem bufCodec_roundTrips_iff_three :
    (putAll .little ({ buf := .alloc (List.replicate 16 0), good := true } : BufCodec).clear
      [.u8 1, .u32 4, .bool true]).good = true ∧
    (RoundTrips .little { buf := .alloc (List.replicate 16 0), good := true }
      [.u8 1, .u32 4, .bool true] ↔ Narrow 0 [1, 4, 1]) := by
  have hg : (putAll .little
      ({ buf := .alloc (List.replicate 16 0), good := true } : BufCodec).clear
      [.u8 1, .u32 4, .bool true]).good = true := by decide
  exact ⟨hg, bufCodec_roundTrips_iff _ _ _ hg⟩

/-! ### Past two gigabytes -/

theorem putAll_append (e : Endian) (c : BufCodec) (vs ws : List Scalar) :
    putAll e c (vs ++ ws) = putAll e (putAll e c vs) ws := by
  induction vs generalizing c with
  | nil => rfl
  | cons v vs ih => rw [List.cons_append, putAll, ih, putAll]

/-- A put below the limit leaves the codec good. -/
theorem put_of_room {e : Endian} {c : BufCodec} {v : Scalar} (hg : c.good = true)
    (hr : (c.buf.align v.size).pos + v.size ≤ (c.buf.align v.size).lim) :
    (v.put e c).2.good = true := by
  rw [put_eq, BufCodec.putRaw, if_pos hg]
  dsimp only
  rw [Buffer.putBlock_of_le (by rw [length_bytes]; exact hr)]
  simp only [length_bytes, beq_self_eq_true]

/-- Bytes fill a buffer one after another. -/
theorem putAll_bytes {e : Endian} {c : BufCodec} (hg : c.good = true) (hw : Writing c.buf)
    (v : UInt8) (k : Nat) (hk : c.buf.pos + k ≤ c.buf.capacity) :
    (putAll e c (List.replicate k (.u8 v))).good = true ∧
      Writing (putAll e c (List.replicate k (.u8 v))).buf ∧
      (putAll e c (List.replicate k (.u8 v))).buf.pos = c.buf.pos + k ∧
      (putAll e c (List.replicate k (.u8 v))).buf.capacity = c.buf.capacity := by
  induction k generalizing c with
  | zero => exact ⟨hg, hw, rfl, rfl⟩
  | succ k ih =>
    have hd : (u8 v).size ∣ c.buf.pos := Nat.one_dvd _
    have hup : roundUp (u8 v).size c.buf.pos = c.buf.pos := roundUp_of_dvd Nat.one_pos hd
    have ha : c.buf.align (u8 v).size = c.buf := by
      rw [Buffer.align_eq _ (u8 v).width_size.dvd (.inl hd), if_pos hd]
    have hlim := hw.lim_eq
    have hput : ((u8 v).put e c).2.good = true := put_of_room hg (by
      rw [ha]
      change c.buf.pos + 1 ≤ c.buf.lim
      omega)
    obtain ⟨-, he⟩ := put_narrow hw (.inl hd) hput
    rw [hup] at he
    have hpos : ((u8 v).put e c).2.buf.pos = c.buf.pos + 1 := by
      rw [he]
      rfl
    have hcap : ((u8 v).put e c).2.buf.capacity = c.buf.capacity := by
      rw [he]
      exact Block.length_write _ _ _
    obtain ⟨h1, h2, h3, h4⟩ := ih hput (writing_put hw (.inl hd) hput) (by omega)
    rw [List.replicate_succ, putAll]
    exact ⟨h1, h2, by omega, h4.trans hcap⟩

theorem narrow_bytes {p k : Nat} {ns : List Nat} (h : Narrow p (List.replicate k 1 ++ ns)) :
    Narrow (p + k) ns := by
  induction k generalizing p with
  | zero => exact h
  | succ k ih =>
    have hup : roundUp 1 p = p := roundUp_of_dvd Nat.one_pos (Nat.one_dvd p)
    have h2 := h.2
    rw [hup] at h2
    have hk := ih h2
    rwa [Nat.add_assoc, Nat.add_comm 1 k] at hk

/-- A word of four put behind bytes that end at a negative `int` does not make the round
trip, although it fits. -/
theorem not_roundTrips_word {e : Endian} {c : BufCodec} {k : Nat} (hd : ¬4 ∣ k)
    (hk : 2 ^ 31 ≤ k % 2 ^ 32) (hr : roundUp 4 k + 8 ≤ c.buf.capacity) :
    (putAll e c.clear (List.replicate k (.u8 0) ++ [.u32 0])).good = true ∧
      ¬RoundTrips e c (List.replicate k (.u8 0) ++ [.u32 0]) := by
  have hw : Writing c.clear.buf := ⟨Nat.zero_le _, rfl⟩
  have h0 : c.clear.buf.pos = 0 := rfl
  have hcap : c.clear.buf.capacity = c.buf.capacity := rfl
  have hle := @le_roundUp 4 k (by decide)
  obtain ⟨hg, hw', hpos, hcap'⟩ := @putAll_bytes e c.clear rfl hw 0 k (by omega)
  rw [h0, Nat.zero_add] at hpos
  have hgood : (putAll e c.clear (List.replicate k (.u8 0) ++ [.u32 0])).good = true := by
    rw [putAll_append]
    have hlim := hw'.lim_eq
    refine put_of_room hg ?_
    rw [Buffer.align_eq_of_negative _ (u32 0).width_size.dvd]
    · have hs : (u32 0).size = 4 := rfl
      rw [hs, hpos, if_pos (by omega)]
      dsimp only
      omega
    · rwa [hpos]
    · rwa [hpos]
  refine ⟨hgood, fun hr ↦ ?_⟩
  have hn := narrow_of_starts hw hgood hr.placed
  rw [h0, List.map_append, List.map_replicate] at hn
  have h4 : Narrow (0 + k) [4] := narrow_bytes hn
  rw [Nat.zero_add] at h4
  exact h4.1.elim hd (Nat.not_lt.mpr hk)

/-- After `2 ^ 31 + 1` bytes a word of four is put seven bytes further, where the next
multiple of four is three bytes away. -/
theorem bufCodec_not_roundTrips :
    (putAll .little
      ({ buf := .alloc (List.replicate (2 ^ 31 + 16) 0), good := true } : BufCodec).clear
      (List.replicate (2 ^ 31 + 1) (.u8 0) ++ [.u32 0])).good = true ∧
    ¬RoundTrips .little { buf := .alloc (List.replicate (2 ^ 31 + 16) 0), good := true }
      (List.replicate (2 ^ 31 + 1) (.u8 0) ++ [.u32 0]) := by
  refine not_roundTrips_word (by omega) (by omega) ?_
  rw [Buffer.capacity_alloc, List.length_replicate]
  decide

end Scalar
end CtrlrFx.Data
