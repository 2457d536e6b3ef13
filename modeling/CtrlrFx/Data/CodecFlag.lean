import CtrlrFx.Data.Mirror

/-!
# The failure flag of the codecs

`CtrlrFx/BufCodec.h:43–87`: every codec goes bad on a transfer that fails, and callers ask it once,
after many calls. Here all calls that the four codecs offer are one alphabet, each with what it
was to move and what it moved, so that runs of any calls can be compared with the flag.
-/

namespace CtrlrFx.Data
open Base

namespace Buffer

variable {T : Type}

/-- The buffer behind the length of an array. -/
def behindCount (b : Buffer T) : Buffer T := { b.align 2 with pos := (b.align 2).pos + 2 }

end Buffer

namespace BufCodec

/-- `CtrlrFx/BufCodec.h:66`. -/
def setMark (c : BufCodec) : BufCodec := { c with buf := c.buf.setMark }

/-- `CtrlrFx/BufCodec.h:68–72`. -/
def reset (c : BufCodec) : BufCodec := { buf := c.buf.reset, good := true }

variable (e : Endian)

/-- `get` of an array of items of `w` bytes, at most `n` of them: as many bytes are taken as there
are items, whatever their size; `CtrlrFx/BufCodec.h:249–267,444–462`. -/
def getItems (c : BufCodec) (w n : Nat) : Nat × List UInt8 × BufCodec :=
  if c.good then
    let r := c.get e (0 : UInt16)
    if r.1 ≠ NativeRep.size UInt16 then (0, [], r.2.2)
    else
      let m := min n r.2.1.toNat
      let q := (r.2.2.buf.align w).getBlock m
      (q.1, q.2.1, { buf := q.2.2, good := toInt32 q.1 == toInt32 m })
  else (0, [], c)

/-- For bytes this is the get of an array of bytes. -/
theorem getItems_one (c : BufCodec) (n : Nat) : c.getItems e 1 n = c.getArr e n := rfl

/-- Bytes that the put of an array moves: its length and, if that was put, its items;
`CtrlrFx/BufCodec.h:162–167`. -/
def putArrMoved (c : BufCodec) (arr : List UInt8) : Nat :=
  if c.good then
    let r := c.put e (UInt16.ofNat arr.length)
    if r.1 ≠ NativeRep.size UInt16 then r.1
    else r.1 + ((r.2.buf.align 1).putBlock arr).1
  else 0

/-- Bytes that the get of an array moves; `CtrlrFx/BufCodec.h:255–263`. -/
def getItemsMoved (c : BufCodec) (w n : Nat) : Nat :=
  if c.good then
    let r := c.get e (0 : UInt16)
    if r.1 ≠ NativeRep.size UInt16 then r.1
    else r.1 + ((r.2.2.buf.align w).getBlock (min n r.2.1.toNat)).1
  else 0

/-- Bytes that the get of an array was to move: the length and, if that was got, as many items as
it and the caller allow. -/
def getItemsNeed (c : BufCodec) (w n : Nat) : Nat :=
  let r := c.get e (0 : UInt16)
  NativeRep.size UInt16 +
    if r.1 ≠ NativeRep.size UInt16 then 0 else min n r.2.1.toNat * w

/-- A put on a good codec, where there is room behind the alignment. -/
theorem putRaw_of_room {c : BufCodec} (hg : c.good = true) {n : Nat} {bs : List UInt8}
    (hb : bs.length = n) (h : (c.buf.align n).pos + n ≤ c.buf.lim) :
    c.putRaw n bs = (n, after (c.buf.align n) bs) := by
  obtain ⟨a, ha⟩ : ∃ a, c.buf.align n = a := ⟨_, rfl⟩
  have hlim : a.lim = c.buf.lim := by rw [← ha, Buffer.lim_align]
  unfold putRaw
  rw [if_pos hg]
  rw [ha] at h ⊢
  dsimp only
  rw [Buffer.putBlock_of_le (by omega), hb]
  simp only [beq_self_eq_true, after, hb]

/-- A put on a good codec, where there is none. -/
theorem putRaw_of_full {c : BufCodec} (hg : c.good = true) {n : Nat} {bs : List UInt8}
    (hb : bs.length = n) (hn : 0 < n) (h : c.buf.lim < (c.buf.align n).pos + n) :
    c.putRaw n bs = (0, { buf := c.buf.align n, good := false }) := by
  obtain ⟨a, ha⟩ : ∃ a, c.buf.align n = a := ⟨_, rfl⟩
  have hlim : a.lim = c.buf.lim := by rw [← ha, Buffer.lim_align]
  have hz : (0 == n) = false := beq_eq_false_iff_ne.mpr (Nat.ne_of_lt hn)
  unfold putRaw
  rw [if_pos hg]
  rw [ha] at h ⊢
  dsimp only
  rw [Buffer.putBlock_of_lt (by omega), hz]

/-- A get on a good codec, where there is room behind the alignment. -/
theorem getRaw_of_room {c : BufCodec} (hg : c.good = true) {n : Nat}
    (h : (c.buf.align n).pos + n ≤ c.buf.lim) :
    c.getRaw n = (n, Block.read c.buf.mem (c.buf.align n).pos n,
      { buf := { c.buf.align n with pos := (c.buf.align n).pos + n }, good := true }) := by
  have hmem := c.buf.mem_align n
  obtain ⟨a, ha⟩ : ∃ a, c.buf.align n = a := ⟨_, rfl⟩
  have hlim : a.lim = c.buf.lim := by rw [← ha, Buffer.lim_align]
  rw [ha] at h hmem ⊢
  rw [getRaw_of_good hg (r := a.getBlock n) (by rw [ha]), Buffer.getBlock_of_le (by omega),
    ← hmem]
  simp only [beq_self_eq_true]

/-- A get on a good codec, where there is none. -/
theorem getRaw_of_empty {c : BufCodec} (hg : c.good = true) {n : Nat} (hn : 0 < n)
    (h : c.buf.lim < (c.buf.align n).pos + n) :
    c.getRaw n = (0, [], { buf := c.buf.align n, good := false }) := by
  obtain ⟨a, ha⟩ : ∃ a, c.buf.align n = a := ⟨_, rfl⟩
  have hlim : a.lim = c.buf.lim := by rw [← ha, Buffer.lim_align]
  have hz : (0 == n) = false := beq_eq_false_iff_ne.mpr (Nat.ne_of_lt hn)
  rw [ha] at h ⊢
  rw [getRaw_of_good hg (r := a.getBlock n) (by rw [ha]), Buffer.getBlock_of_lt (by omega), hz]

/-! ### Arrays -/

/-- The length of an array as it is put in front of it. -/
def count (arr : List UInt8) : List UInt8 := NativeRep.bytes e (UInt16.ofNat arr.length)

theorem length_count (arr : List UInt8) : (count e arr).length = 2 := NativeRep.length_bytes e _

/-- The length that is read at an offset. -/
def countAt (mem : List UInt8) (p : Nat) : Nat :=
  (NativeRep.value e (Block.read mem p 2) : UInt16).toNat

variable {e}

theorem putArr_of_counted {c c' : BufCodec} (hg : c.good = true) {arr : List UInt8}
    (hput : c.put e (UInt16.ofNat arr.length) = (2, c')) {q : Nat × Buffer UInt8}
    (hq : c'.buf.putBlock arr = q) :
    c.putArr e arr = (0, { buf := q.2, good := toInt32 q.1 == toInt32 arr.length }) ∧
      c.putArrMoved e arr = 2 + q.1 := by
  have hn : ¬(2 : Nat) ≠ NativeRep.size UInt16 := fun h ↦ h rfl
  rw [← c'.buf.align_one] at hq
  constructor
  · rw [putArr, if_pos hg, hput, ← hq]
    exact if_neg hn
  · rw [putArrMoved, if_pos hg, hput, ← hq]
    exact if_neg hn

theorem putArr_of_uncounted {c c' : BufCodec} (hg : c.good = true) {arr : List UInt8}
    (hput : c.put e (UInt16.ofNat arr.length) = (0, c')) :
    c.putArr e arr = (0, c') ∧ c.putArrMoved e arr = 0 := by
  have hn : (0 : Nat) ≠ NativeRep.size UInt16 := by decide
  constructor
  · rw [putArr, if_pos hg, hput]
    exact if_pos hn
  · rw [putArrMoved, if_pos hg, hput]
    exact if_pos hn

/-- What the put of an array does on a good codec, and what it moves: nothing if the length has no
room; the length alone if the items have none; else both. -/
theorem putArr_spec {c : BufCodec} (hg : c.good = true) {a : Buffer UInt8}
    (ha : c.buf.align 2 = a) (arr : List UInt8) :
    (c.buf.lim < a.pos + 2 ∧ c.putArr e arr = (0, { buf := a, good := false }) ∧
        c.putArrMoved e arr = 0) ∨
    (a.pos + 2 ≤ c.buf.lim ∧ c.buf.lim < a.pos + 2 + arr.length ∧
      c.putArr e arr = (0, { buf := (after a (count e arr)).buf
                             good := toInt32 (0 : Nat) == toInt32 arr.length }) ∧
        c.putArrMoved e arr = 2) ∨
    (a.pos + 2 + arr.length ≤ c.buf.lim ∧
      c.putArr e arr = (0, after a (count e arr ++ arr)) ∧
        c.putArrMoved e arr = 2 + arr.length) := by
  have hlim : a.lim = c.buf.lim := by rw [← ha, Buffer.lim_align]
  by_cases hroom : a.pos + 2 ≤ c.buf.lim
  · have hput : c.put e (UInt16.ofNat arr.length) = (2, after a (count e arr)) := by
      rw [← ha] at hroom ⊢
      exact putRaw_of_room hg (length_count e arr) hroom
    have hpos : (after a (count e arr)).buf.pos = a.pos + 2 := by rw [pos_after, length_count]
    have hl : (after a (count e arr)).buf.lim = c.buf.lim := hlim
    right
    by_cases hall : a.pos + 2 + arr.length ≤ c.buf.lim
    · have hq := @Buffer.putBlock_of_le UInt8 (after a (count e arr)).buf arr (by omega)
      obtain ⟨h1, h2⟩ := putArr_of_counted hg hput hq
      right
      refine ⟨hall, ?_, h2⟩
      rw [h1, ← after_after]
      simp only [beq_self_eq_true, after]
    · have hq := @Buffer.putBlock_of_lt UInt8 (after a (count e arr)).buf arr (by omega)
      obtain ⟨h1, h2⟩ := putArr_of_counted hg hput hq
      left
      exact ⟨hroom, Nat.lt_of_not_le hall, h1, h2⟩
  · have hfull := Nat.lt_of_not_le hroom
    have hput : c.put e (UInt16.ofNat arr.length) = (0, { buf := a, good := false }) := by
      rw [← ha] at hfull ⊢
      exact putRaw_of_full hg (length_count e arr) (by decide) hfull
    obtain ⟨h1, h2⟩ := putArr_of_uncounted hg hput
    left
    exact ⟨hfull, h1, h2⟩

theorem getItems_of_counted {c c' : BufCodec} (hg : c.good = true) {w n : Nat} {k : UInt16}
    (hget : c.get e (0 : UInt16) = (2, k, c')) {q : Nat × List UInt8 × Buffer UInt8}
    (hq : (c'.buf.align w).getBlock (min n k.toNat) = q) :
    c.getItems e w n =
        (q.1, q.2.1, { buf := q.2.2, good := toInt32 q.1 == toInt32 (min n k.toNat : Nat) }) ∧
      c.getItemsMoved e w n = 2 + q.1 ∧ c.getItemsNeed e w n = 2 + min n k.toNat * w := by
  have hn : ¬(2 : Nat) ≠ NativeRep.size UInt16 := fun h ↦ h rfl
  refine ⟨?_, ?_, ?_⟩
  · rw [getItems, if_pos hg, hget, ← hq]
    exact if_neg hn
  · rw [getItemsMoved, if_pos hg, hget, ← hq]
    exact if_neg hn
  · rw [getItemsNeed, hget]
    exact congrArg (2 + ·) (if_neg hn)

theorem getItems_of_uncounted {c c' : BufCodec} (hg : c.good = true) {w n : Nat} {k : UInt16}
    (hget : c.get e (0 : UInt16) = (0, k, c')) :
    c.getItems e w n = (0, [], c') ∧ c.getItemsMoved e w n = 0 ∧ c.getItemsNeed e w n = 2 := by
  have hn : (0 : Nat) ≠ NativeRep.size UInt16 := by decide
  refine ⟨?_, ?_, ?_⟩
  · rw [getItems, if_pos hg, hget]
    exact if_pos hn
  · rw [getItemsMoved, if_pos hg, hget]
    exact if_pos hn
  · rw [getItemsNeed, hget]
    exact congrArg (2 + ·) (if_pos hn)

/-- The length of an array is got from its place. -/
theorem get_count_of_room {c : BufCodec} (hg : c.good = true) {a : Buffer UInt8}
    (ha : c.buf.align 2 = a) (h : a.pos + 2 ≤ c.buf.lim) :
    c.get e (0 : UInt16) = (2, NativeRep.value e (Block.read c.buf.mem a.pos 2),
      { buf := { a with pos := a.pos + 2 }, good := true }) := by
  have hraw : c.getRaw 2 = (2, Block.read c.buf.mem a.pos 2,
      { buf := { a with pos := a.pos + 2 }, good := true }) := by
    rw [← ha] at h ⊢
    exact getRaw_of_room hg h
  have hsize : NativeRep.size UInt16 = 2 := rfl
  rw [get, hsize, hraw]
  dsimp only
  rw [if_pos rfl]

/-- Where the length of an array is missing, alignment is all there is. -/
theorem get_count_of_empty {c : BufCodec} (hg : c.good = true) {a : Buffer UInt8}
    (ha : c.buf.align 2 = a) (h : c.buf.lim < a.pos + 2) :
    c.get e (0 : UInt16) = (0, 0, { buf := a, good := false }) := by
  have hraw : c.getRaw 2 = (0, [], { buf := a, good := false }) := by
    rw [← ha] at h ⊢
    exact getRaw_of_empty hg (by decide) h
  have hsize : NativeRep.size UInt16 = 2 := rfl
  rw [get, hsize, hraw]
  dsimp only
  rw [if_neg (by decide)]

/-- What the get of an array does on a good codec, and what it moves: nothing if there is no
length; the length alone if there are not as many bytes as items; else both. -/
theorem getItems_spec {c : BufCodec} (hg : c.good = true) {a d : Buffer UInt8} {w m : Nat}
    (n : Nat) (ha : c.buf.align 2 = a)
    (hd : ({ a with pos := a.pos + 2 } : Buffer UInt8).align w = d)
    (hm : min n (countAt e c.buf.mem a.pos) = m) :
    (c.buf.lim < a.pos + 2 ∧ c.getItems e w n = (0, [], { buf := a, good := false }) ∧
      c.getItemsMoved e w n = 0 ∧ c.getItemsNeed e w n = 2) ∨
    (a.pos + 2 ≤ c.buf.lim ∧ c.buf.lim < d.pos + m ∧
      c.getItems e w n = (0, [], { buf := d, good := toInt32 (0 : Nat) == toInt32 m }) ∧
      c.getItemsMoved e w n = 2 ∧ c.getItemsNeed e w n = 2 + m * w) ∨
    (a.pos + 2 ≤ c.buf.lim ∧ d.pos + m ≤ c.buf.lim ∧
      c.getItems e w n = (m, Block.read c.buf.mem d.pos m,
        { buf := { d with pos := d.pos + m }, good := true }) ∧
      c.getItemsMoved e w n = 2 + m ∧ c.getItemsNeed e w n = 2 + m * w) := by
  have hlima : a.lim = c.buf.lim := by rw [← ha, Buffer.lim_align]
  have hmema : a.mem = c.buf.mem := by rw [← ha, Buffer.mem_align]
  have hlim : d.lim = c.buf.lim := by
    rw [← hd, Buffer.lim_align]
    exact hlima
  have hmem : d.mem = c.buf.mem := by
    rw [← hd, Buffer.mem_align]
    exact hmema
  by_cases hroom : a.pos + 2 ≤ c.buf.lim
  · have hget := get_count_of_room (e := e) hg ha hroom
    have hspec {q : Nat × List UInt8 × Buffer UInt8} (hq : d.getBlock m = q) :
        c.getItems e w n = (q.1, q.2.1, { buf := q.2.2, good := toInt32 q.1 == toInt32 m }) ∧
          c.getItemsMoved e w n = 2 + q.1 ∧ c.getItemsNeed e w n = 2 + m * w := by
      subst hd hm
      exact getItems_of_counted hg hget hq
    right
    by_cases hall : d.pos + m ≤ c.buf.lim
    · obtain ⟨h1, h2, h3⟩ := hspec (Buffer.getBlock_of_le (by omega))
      right
      refine ⟨hroom, hall, ?_, h2, h3⟩
      rw [h1, hmem]
      simp only [beq_self_eq_true]
    · obtain ⟨h1, h2, h3⟩ := hspec (Buffer.getBlock_of_lt (by omega))
      left
      exact ⟨hroom, Nat.lt_of_not_le hall, h1, h2, h3⟩
  · have hfull := Nat.lt_of_not_le hroom
    obtain ⟨h1, h2, h3⟩ := getItems_of_uncounted (w := w) (n := n) hg
      (get_count_of_empty (e := e) hg ha hfull)
    left
    exact ⟨hfull, h1, h2, h3⟩

end BufCodec

/-- Calls on codecs. Values come as the bytes that they have in memory. -/
inductive CodecOp where
  /-- The template `put` of one value. -/
  | put (bs : List UInt8)
  /-- A put of a word backwards. -/
  | putSwap (bs : List UInt8)
  | putArr (arr : List UInt8)
  /-- The template `get` of one value of `n` bytes. -/
  | get (n : Nat)
  /-- A get of a word backwards into a variable. -/
  | getSwap (old : List UInt8)
  /-- A get of at most `n` items of `w` bytes. -/
  | getArr (w n : Nat)
  | mark
  | reset
  | rewind
  | clear
  deriving DecidableEq, Repr

/-- The codecs of `CtrlrFx/BufCodec.h`. -/
inductive CodecClass where
  | nativeEncoder
  | nativeDecoder
  | swapEncoder
  | swapDecoder
  deriving DecidableEq, Repr

/-- Sizes of types that an `int` holds. -/
def TypeSize (n : Nat) : Prop := 0 < n ∧ n < 2 ^ 31

/-- Calls that a class offers, to its users or to classes derived from it. The swap codecs use their
templates for bytes and floating-point numbers;
`CtrlrFx/BufCodec.h:117–133,213–230,294–340,384–432`. -/
def CodecClass.Offers : CodecClass → CodecOp → Prop
  | nativeEncoder, .put bs => TypeSize bs.length
  | nativeEncoder, .putArr _ => True
  | nativeDecoder, .get n => TypeSize n
  | nativeDecoder, .getArr w _ => TypeSize w
  | swapEncoder, .put bs => bs.length = 1 ∨ bs.length = 4 ∨ bs.length = 8
  | swapEncoder, .putSwap bs => bs.length = 2 ∨ bs.length = 4 ∨ bs.length = 8
  | swapEncoder, .putArr _ => True
  | swapDecoder, .get n => n = 1 ∨ n = 4 ∨ n = 8
  | swapDecoder, .getSwap old => old.length = 2 ∨ old.length = 4 ∨ old.length = 8
  | swapDecoder, .getArr w _ => TypeSize w
  | _, .mark | _, .reset | _, .rewind | _, .clear => True
  | _, _ => False

/-- What a call returns, the bytes it was to move into the buffer or out of it, those that it moved,
and the codec it leaves. -/
structure Transfer where
  ret : Nat
  need : Nat
  moved : Nat
  codec : BufCodec

namespace CodecOp

variable (e : Endian)

/-- What a call does. -/
def effect (c : BufCodec) : CodecOp → Transfer
  | put bs =>
    let r := c.putRaw bs.length bs
    { ret := r.1, need := bs.length, moved := r.1, codec := r.2 }
  | putSwap bs =>
    let r := c.putSwap bs
    { ret := r.1, need := bs.length, moved := r.1, codec := r.2 }
  | putArr arr =>
    let r := c.putArr e arr
    { ret := r.1, need := NativeRep.size UInt16 + arr.length, moved := c.putArrMoved e arr
      codec := r.2 }
  | get n =>
    let r := c.getRaw n
    { ret := r.1, need := n, moved := r.1, codec := r.2.2 }
  | getSwap old =>
    let r := c.getSwap old
    { ret := r.1, need := old.length, moved := r.1, codec := r.2.2 }
  | getArr w n =>
    let r := c.getItems e w n
    { ret := r.1, need := c.getItemsNeed e w n, moved := c.getItemsMoved e w n, codec := r.2.2 }
  -- the others return the codec itself, and no count
  | mark => { ret := 0, need := 0, moved := 0, codec := c.setMark }
  | reset => { ret := 0, need := 0, moved := 0, codec := c.reset }
  | rewind => { ret := 0, need := 0, moved := 0, codec := c.rewind }
  | clear => { ret := 0, need := 0, moved := 0, codec := c.clear }

/-- A codec and any calls on it. -/
def machine : Machine BufCodec CodecOp where
  init _ := True
  step c x := some (x.effect e c).codec

/-- Calls that make a codec good again. -/
def restores : CodecOp → Bool
  | reset | rewind | clear => true
  | _ => false

/-- Calls that put or get something. -/
def transfers : CodecOp → Bool
  | mark | reset | rewind | clear => false
  | _ => true

/-- A call moves all that it was to move. -/
def Succeeds (c : BufCodec) (x : CodecOp) : Prop := (x.effect e c).moved = (x.effect e c).need

/-- What makes the flag honest at a call. -/
structure Honest (c : BufCodec) (x : CodecOp) : Prop where
  /-- A transfer that is not complete leaves the codec bad. -/
  truthful : ¬Succeeds e c x → (x.effect e c).codec.good = false
  /-- On a bad codec a transfer returns 0, moves nothing and changes nothing. -/
  sticky : c.good = false → x.transfers = true →
    (x.effect e c).ret = 0 ∧ (x.effect e c).moved = 0 ∧ (x.effect e c).codec = c

/-- A word goes backwards exactly if the codec is good and there is room for it; no array has a
length that narrows to 0 and more items than there is room for; no more than one byte is asked of
each item of an array, unless there are no items or no bytes. -/
def Careful (c : BufCodec) : CodecOp → Prop
  | putSwap bs => c.good = decide (bs.length ≤ c.buf.available)
  | getSwap old => c.good = decide (old.length ≤ c.buf.available)
  | putArr arr =>
    ¬(c.good = true ∧ 2 ^ 32 ∣ arr.length ∧ (c.buf.align 2).pos + 2 ≤ c.buf.lim ∧
      c.buf.lim < (c.buf.align 2).pos + 2 + arr.length)
  | getArr w n =>
    let m := min n (BufCodec.countAt e c.buf.mem (c.buf.align 2).pos)
    ¬(c.good = true ∧ 1 < w ∧ 0 < m ∧ (c.buf.align 2).pos + 2 ≤ c.buf.lim ∧
      (c.buf.behindCount.align w).pos + m ≤ c.buf.lim)
  | _ => True

/-- Sizes of what is moved are positive. -/
def Sized : CodecOp → Prop
  | put bs | putSwap bs => 0 < bs.length
  | get n => 0 < n
  | getSwap old => 0 < old.length
  | getArr w _ => 0 < w
  | _ => True

theorem sized_of_offers {k : CodecClass} {x : CodecOp} (h : k.Offers x) : x.Sized := by
  cases x with
  | put bs =>
    cases k with
    | nativeEncoder => exact h.1
    | nativeDecoder => exact h.elim
    | swapEncoder =>
      change bs.length = 1 ∨ bs.length = 4 ∨ bs.length = 8 at h
      change 0 < bs.length
      omega
    | swapDecoder => exact h.elim
  | putSwap bs =>
    cases k <;> try exact h.elim
    change bs.length = 2 ∨ bs.length = 4 ∨ bs.length = 8 at h
    change 0 < bs.length
    omega
  | get n =>
    cases k with
    | nativeEncoder => exact h.elim
    | nativeDecoder => exact h.1
    | swapEncoder => exact h.elim
    | swapDecoder =>
      change n = 1 ∨ n = 4 ∨ n = 8 at h
      change 0 < n
      omega
  | getSwap old =>
    cases k <;> try exact h.elim
    change old.length = 2 ∨ old.length = 4 ∨ old.length = 8 at h
    change 0 < old.length
    omega
  | getArr w n => cases k <;> first | exact h.elim | exact h.1
  | putArr arr => trivial
  | mark => trivial
  | reset => trivial
  | rewind => trivial
  | clear => trivial

variable {e}

/-- On a good codec a call is honest exactly if it succeeds or leaves the codec bad. -/
theorem honest_good_iff {c : BufCodec} {x : CodecOp} (hg : c.good = true) :
    Honest e c x ↔ Succeeds e c x ∨ (x.effect e c).codec.good = false := by
  constructor
  · intro hh
    by_cases hs : Succeeds e c x
    · exact .inl hs
    · exact .inr (hh.truthful hs)
  · intro h
    refine ⟨fun hn ↦ h.resolve_left hn, ?_⟩
    intro hf
    rw [hg] at hf
    cases hf

/-- On a bad one, a call that does nothing is honest. -/
theorem honest_of_idle {c : BufCodec} {x : CodecOp} (hg : c.good = false)
    (h : (x.effect e c).ret = 0 ∧ (x.effect e c).moved = 0 ∧ (x.effect e c).codec = c) :
    Honest e c x := by
  refine ⟨?_, fun _ _ ↦ h⟩
  intro _
  rw [h.2.2]
  exact hg

/-- A call that asks for room alone is honest exactly if the codec is good where there is room and
bad where there is none. -/
theorem honest_swap_iff {c c' : BufCodec} {x : CodecOp} {n a : Nat} (hn : 0 < n)
    (hx : x.transfers = true)
    (he : x.effect e c = if a < n then { ret := 0, need := n, moved := 0, codec := c }
      else { ret := n, need := n, moved := n, codec := c' }) :
    Honest e c x ↔ c.good = decide (n ≤ a) := by
  by_cases ha : a < n
  · rw [if_pos ha] at he
    rw [decide_eq_false (Nat.not_le.mpr ha)]
    constructor
    · intro hh
      have ht := hh.truthful (by
        unfold Succeeds
        rw [he]
        exact Nat.ne_of_lt hn)
      rwa [he] at ht
    · intro hf
      refine ⟨?_, fun _ _ ↦ by rw [he]; exact ⟨rfl, rfl, rfl⟩⟩
      intro _
      rw [he]
      exact hf
  · rw [if_neg ha] at he
    rw [decide_eq_true (Nat.le_of_not_lt ha)]
    constructor
    · intro hh
      by_contra hf
      have hret := (hh.sticky (Bool.eq_false_of_not_eq_true hf) hx).1
      rw [he] at hret
      exact Nat.ne_of_gt hn hret
    · intro ht
      refine ⟨?_, ?_⟩
      · intro hf
        unfold Succeeds at hf
        rw [he] at hf
        exact absurd rfl hf
      · intro hf
        rw [ht] at hf
        cases hf

/-- The put of one value goes bad, if there is no room. -/
theorem honest_put (c : BufCodec) {bs : List UInt8} (hn : 0 < bs.length) :
    Honest e c (put bs) := by
  cases hg : c.good with
  | false =>
    apply honest_of_idle hg
    rw [effect, BufCodec.putRaw_of_bad hg]
    exact ⟨rfl, rfl, rfl⟩
  | true =>
    rw [honest_good_iff hg]
    by_cases h : (c.buf.align bs.length).pos + bs.length ≤ c.buf.lim
    · left
      rw [Succeeds, effect, BufCodec.putRaw_of_room hg rfl h]
    · right
      rw [effect, BufCodec.putRaw_of_full hg rfl hn (Nat.lt_of_not_le h)]

/-- So does the get. -/
theorem honest_get (c : BufCodec) {n : Nat} (hn : 0 < n) : Honest e c (get n) := by
  cases hg : c.good with
  | false =>
    apply honest_of_idle hg
    rw [effect, BufCodec.getRaw_of_bad hg]
    exact ⟨rfl, rfl, rfl⟩
  | true =>
    rw [honest_good_iff hg]
    by_cases h : (c.buf.align n).pos + n ≤ c.buf.lim
    · left
      rw [Succeeds, effect, BufCodec.getRaw_of_room hg h]
    · right
      rw [effect, BufCodec.getRaw_of_empty hg hn (Nat.lt_of_not_le h)]

/-- A number narrows to 0 exactly if it is a multiple of the range of an `int`. -/
theorem toInt32_zero_beq_iff (n : Nat) :
    (toInt32 (0 : Nat) == toInt32 n) = false ↔ ¬2 ^ 32 ∣ n := by
  have hz : toInt32 (0 : Nat) = 0 := toInt32_of_lt 0 (by decide) (by decide)
  have hn : toInt32 n = 0 ↔ 2 ^ 32 ∣ n := by
    unfold toInt32
    split <;> omega
  rw [beq_eq_false_iff_ne, hz, ← hn]
  exact not_congr eq_comm

/-- An array that does not fit leaves the codec good exactly if its length narrows to 0. -/
theorem honest_putArr_iff (c : BufCodec) (arr : List UInt8) :
    Honest e c (putArr arr) ↔ Careful e c (putArr arr) := by
  cases hg : c.good with
  | false =>
    have hbad : c.putArr e arr = (0, c) := if_neg (by simp [hg])
    have hmoved : c.putArrMoved e arr = 0 := if_neg (by simp [hg])
    apply iff_of_true
    · apply honest_of_idle hg
      rw [effect, hbad, hmoved]
      exact ⟨rfl, rfl, rfl⟩
    · simp [Careful, hg]
  | true =>
    obtain ⟨a, ha⟩ : ∃ a, c.buf.align 2 = a := ⟨_, rfl⟩
    have hcareful : Careful e c (putArr arr) ↔
        ¬(2 ^ 32 ∣ arr.length ∧ a.pos + 2 ≤ c.buf.lim ∧
          c.buf.lim < a.pos + 2 + arr.length) := by
      rw [Careful, ha, hg]
      simp only [true_and]
    rw [honest_good_iff hg, hcareful]
    rcases BufCodec.putArr_spec (e := e) hg ha arr with
      ⟨hf, hput, hmoved⟩ | ⟨hr, hf, hput, hmoved⟩ | ⟨hr, hput, hmoved⟩
    · apply iff_of_true
      · right
        rw [effect, hput]
      · rintro ⟨-, h, -⟩
        omega
    · have hshort : ¬Succeeds e c (putArr arr) := by
        intro hs
        have h2 : 2 = 2 + arr.length := hmoved.symm.trans hs
        omega
      have hgood : ((putArr arr).effect e c).codec.good =
          (toInt32 (0 : Nat) == toInt32 arr.length) := by rw [effect, hput]
      rw [or_iff_right hshort, hgood, toInt32_zero_beq_iff]
      simp only [hr, hf, and_true]
    · apply iff_of_true
      · left
        exact hmoved
      · rintro ⟨-, -, h⟩
        omega

/-- Items of more than a byte are as many as their bytes only if there are none. -/
theorem add_mul_eq_iff {m w : Nat} (hw : 0 < w) : 2 + m = 2 + m * w ↔ ¬(1 < w ∧ 0 < m) := by
  rcases Nat.eq_zero_or_pos m with rfl | h0
  · simp
  · have hmul : m * w = m ↔ w = 1 := by
      constructor
      · intro h
        exact Nat.eq_of_mul_eq_mul_left h0 (by omega)
      · rintro rfl
        exact Nat.mul_one m
    omega

theorem countAt_lt (mem : List UInt8) (p : Nat) : BufCodec.countAt e mem p < 2 ^ 16 :=
  UInt16.toNat_lt _

/-- Where as many bytes are got as there are items, the call succeeds exactly if these are the
same. -/
theorem honest_getArr_iff (c : BufCodec) {w : Nat} (hw : 0 < w) (n : Nat) :
    Honest e c (getArr w n) ↔ Careful e c (getArr w n) := by
  cases hg : c.good with
  | false =>
    have hbad : c.getItems e w n = (0, [], c) := if_neg (by simp [hg])
    have hmoved : c.getItemsMoved e w n = 0 := if_neg (by simp [hg])
    apply iff_of_true
    · apply honest_of_idle hg
      rw [effect, hbad, hmoved]
      exact ⟨rfl, rfl, rfl⟩
    · simp [Careful, hg]
  | true =>
    obtain ⟨a, ha⟩ : ∃ a, c.buf.align 2 = a := ⟨_, rfl⟩
    obtain ⟨d, hd⟩ : ∃ d, ({ a with pos := a.pos + 2 } : Buffer UInt8).align w = d := ⟨_, rfl⟩
    obtain ⟨m, hm⟩ : ∃ m, min n (BufCodec.countAt e c.buf.mem a.pos) = m := ⟨_, rfl⟩
    have hlt : m < 2 ^ 16 := by
      rw [← hm]
      exact Nat.lt_of_le_of_lt (Nat.min_le_right _ _) (countAt_lt _ _)
    have hcareful : Careful e c (getArr w n) ↔
        ¬(1 < w ∧ 0 < m ∧ a.pos + 2 ≤ c.buf.lim ∧ d.pos + m ≤ c.buf.lim) := by
      rw [Careful, Buffer.behindCount, ha, hd, hm, hg]
      simp only [true_and]
    rw [honest_good_iff hg, hcareful]
    rcases BufCodec.getItems_spec (e := e) hg n ha hd hm with
      ⟨hf, hget, hmoved, hneed⟩ | ⟨hr, hf, hget, hmoved, hneed⟩ | ⟨hr, hl, hget, hmoved, hneed⟩
    · apply iff_of_true
      · right
        rw [effect, hget]
      · rintro ⟨-, -, h, -⟩
        omega
    · apply iff_of_true
      · by_cases hz : m = 0
        · left
          rw [hz, Nat.zero_mul] at hneed
          exact hmoved.trans hneed.symm
        · right
          have hgood : ((getArr w n).effect e c).codec.good =
              (toInt32 (0 : Nat) == toInt32 m) := by rw [effect, hget]
          rw [hgood, toInt32_zero_beq_iff]
          omega
      · rintro ⟨-, -, -, h⟩
        omega
    · have hgood : ((getArr w n).effect e c).codec.good = true := by rw [effect, hget]
      have hs : Succeeds e c (getArr w n) ↔ 2 + m = 2 + m * w := by
        rw [← hmoved, ← hneed]
        rfl
      rw [hgood, hs]
      simp only [hr, hl, and_true, Bool.true_eq_false, or_false]
      exact add_mul_eq_iff hw

/-- A call is honest exactly if it is careful. -/
theorem honest_iff (c : BufCodec) {x : CodecOp} (hx : x.Sized) :
    Honest e c x ↔ Careful e c x := by
  cases x with
  | put bs => exact iff_of_true (honest_put c hx) trivial
  | get n => exact iff_of_true (honest_get c hx) trivial
  | putArr arr => exact honest_putArr_iff c arr
  | getArr w n => exact honest_getArr_iff c hx n
  | putSwap bs =>
    have he : (putSwap bs).effect e c = if c.buf.available < bs.length
        then { ret := 0, need := bs.length, moved := 0, codec := c }
        else { ret := bs.length, need := bs.length, moved := bs.length
               codec := { c with buf := bs.reverse.foldl Buffer.put c.buf } } := by
      rw [effect, BufCodec.putSwap]
      split <;> rfl
    exact honest_swap_iff hx rfl he
  | getSwap old =>
    have he : (getSwap old).effect e c = if c.buf.available < old.length
        then { ret := 0, need := old.length, moved := 0, codec := c }
        else { ret := old.length, need := old.length, moved := old.length
               codec := { c with buf := (c.buf.getDown old old.length).2 } } := by
      rw [effect, BufCodec.getSwap]
      split <;> rfl
    exact honest_swap_iff hx rfl he
  | mark => exact iff_of_true ⟨fun h ↦ absurd rfl h, fun _ h ↦ by cases h⟩ trivial
  | reset => exact iff_of_true ⟨fun h ↦ absurd rfl h, fun _ h ↦ by cases h⟩ trivial
  | rewind => exact iff_of_true ⟨fun h ↦ absurd rfl h, fun _ h ↦ by cases h⟩ trivial
  | clear => exact iff_of_true ⟨fun h ↦ absurd rfl h, fun _ h ↦ by cases h⟩ trivial

/-! ### Runs -/

/-- The codec that calls leave. -/
def finish (e : Endian) (c : BufCodec) (xs : List CodecOp) : BufCodec :=
  xs.foldl (fun c x ↦ (x.effect e c).codec) c

/-- What callers rely on who ask a codec once: the flag is honest at every call, and if no call made
the codec good again, a codec that is good at the end tells that every call succeeded. -/
structure Reliable (e : Endian) (c : BufCodec) (xs : List CodecOp) : Prop where
  honest : (machine e).Along (Honest e) c xs
  accounted : (∀ x ∈ xs, x.restores = false) → (finish e c xs).good = true →
    (machine e).Along (Succeeds e) c xs

/-- A call that does not make it good leaves a bad codec as it is, but for the mark. -/
theorem good_effect {c : BufCodec} {x : CodecOp} (hh : Honest e c x) (hx : x.restores = false)
    (hg : (x.effect e c).codec.good = true) : c.good = true := by
  by_contra hf
  have hb := Bool.eq_false_of_not_eq_true hf
  cases ht : x.transfers with
  | true =>
    rw [(hh.sticky hb ht).2.2] at hg
    exact hf hg
  | false =>
    cases x with
    | mark => exact hf hg
    | reset => cases hx
    | rewind => cases hx
    | clear => cases hx
    | _ => cases ht

/-- Where the flag is honest, a codec that is good at the end was good all along. -/
theorem good_of_finish {c : BufCodec} {xs : List CodecOp}
    (hh : (machine e).Along (Honest e) c xs) (hx : ∀ x ∈ xs, x.restores = false)
    (hg : (finish e c xs).good = true) : c.good = true := by
  induction xs generalizing c with
  | nil => exact hg
  | cons x xs ih =>
    have hx' := hx x List.mem_cons_self
    exact good_effect hh.1 hx'
      (ih (hh.2 _ rfl) (fun y hy ↦ hx y (List.mem_cons_of_mem _ hy)) hg)

/-- So every call on the way succeeded. -/
theorem succeeds_of_finish {c : BufCodec} {xs : List CodecOp}
    (hh : (machine e).Along (Honest e) c xs) (hx : ∀ x ∈ xs, x.restores = false)
    (hg : (finish e c xs).good = true) : (machine e).Along (Succeeds e) c xs := by
  induction xs generalizing c with
  | nil => trivial
  | cons x xs ih =>
    have hxs : ∀ y ∈ xs, y.restores = false := fun y hy ↦ hx y (List.mem_cons_of_mem _ hy)
    have hgood := good_of_finish (hh.2 _ rfl) hxs hg
    constructor
    · by_contra hs
      rw [hh.1.truthful hs] at hgood
      cases hgood
    · rintro _ ⟨⟩
      exact ih (hh.2 _ rfl) hxs hg

/-- On any buffer, a codec of any class is reliable over calls that the class offers exactly if
every call is careful. -/
theorem reliable_iff (e : Endian) (k : CodecClass) (c : BufCodec) (xs : List CodecOp)
    (hk : ∀ x ∈ xs, k.Offers x) : Reliable e c xs ↔ (machine e).Along (Careful e) c xs := by
  have hstep : (machine e).Along (Honest e) c xs ↔ (machine e).Along (Careful e) c xs := by
    induction xs generalizing c with
    | nil => rfl
    | cons x xs ih =>
      have hx := honest_iff (e := e) c (sized_of_offers (hk x List.mem_cons_self))
      have hxs := ih (x.effect e c).codec fun y hy ↦ hk y (List.mem_cons_of_mem _ hy)
      rw [Machine.along_cons rfl, Machine.along_cons rfl, hx, hxs]
  constructor
  · intro hr
    exact hstep.mp hr.honest
  · intro hc
    have hh := hstep.mpr hc
    exact ⟨hh, succeeds_of_finish hh⟩

/-- Bytes, a word that does not fit and is kept back, and the start again, on a native encoder. -/
theorem reliable_iff_four :
    (∀ x ∈ [CodecOp.put [7], .putArr [1, 2], .put [0, 0, 0, 9], .rewind],
      CodecClass.nativeEncoder.Offers x) ∧
    (Reliable .little { buf := .fixed [0, 0, 0, 0, 0, 0, 0], good := true }
      [.put [7], .putArr [1, 2], .put [0, 0, 0, 9], .rewind] ↔
        (machine .little).Along (Careful .little)
          { buf := .fixed [0, 0, 0, 0, 0, 0, 0], good := true }
          [.put [7], .putArr [1, 2], .put [0, 0, 0, 9], .rewind]) := by
  have hk : ∀ x ∈ [CodecOp.put [7], .putArr [1, 2], .put [0, 0, 0, 9], .rewind],
      CodecClass.nativeEncoder.Offers x := by
    simp [CodecClass.Offers, TypeSize]
  exact ⟨hk, reliable_iff .little .nativeEncoder _ _ hk⟩

/-- A word of two does not fit in one byte, but a swap encoder stays good. -/
theorem not_reliable_swap :
    CodecClass.swapEncoder.Offers (.putSwap [1, 2]) ∧
    ((CodecOp.putSwap [1, 2]).effect .little { buf := .fixed [0], good := true }).ret = 0 ∧
    (finish .little { buf := .fixed [0], good := true } [.putSwap [1, 2]]).good = true ∧
    ¬Reliable .little { buf := .fixed [0], good := true } [.putSwap [1, 2]] := by
  refine ⟨.inl rfl, by decide, by decide, ?_⟩
  intro hr
  have hs := (hr.accounted (by decide) (by decide)).1
  exact absurd hs (by unfold Succeeds; decide)

end CodecOp
end CtrlrFx.Data
