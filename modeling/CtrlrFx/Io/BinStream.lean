import CtrlrFx.Io.Bytewise
import Mathlib.Data.List.Forall2

/-!
# Binary streams

`CtrlrFx/BinStreamBase.h`, `CtrlrFx/BinStream.h` and `src/io/BinStream/BinStream.cpp`: a state, a
stream buffer and two settings, with inserters and extractors for the fixed-width types. The
layout of a list of values is given apart from any buffer, and the inserters and extractors
keep to it wherever padding is counted from a multiple of the size at hand.
-/

namespace CtrlrFx.Io
open Base

/-- `CtrlrFx/BinStreamBase.h:58–61`. -/
abbrev IoState := UInt32

namespace IoState

def goodbit : IoState := 0x00

def eofbit : IoState := 0x01

def failbit : IoState := 0x02

end IoState
open IoState

/-! ### Swapping in place -/

/-- The loop of `swap_bytes`; `CtrlrFx/swap.h:20–24`. -/
def swapLoop (n : Nat) : Nat → Nat → List UInt8 → List UInt8
  | 0, _, pv => pv
  | k + 1, i, pv =>
    let tmp := pv.getD i 0
    swapLoop n k (i + 1) ((pv.set i (pv.getD (n - 1 - i) 0)).set (n - 1 - i) tmp)

/-- `CtrlrFx/swap.h:13–26`, on the bytes of a variable. -/
def swapInPlace (pv : List UInt8) : List UInt8 :=
  if 1 < pv.length then swapLoop pv.length (pv.length / 2) 0 pv else pv

/-- The bytes from place `i` on, up to as many before the end, change places with one another. -/
theorem getElem?_swapLoop {n k i : Nat} {pv : List UInt8} (hn : pv.length = n)
    (hk : i + k = n / 2) (j : Nat) :
    (swapLoop n k i pv)[j]? = if i ≤ j ∧ j < n - i then pv[n - 1 - j]? else pv[j]? := by
  induction k generalizing i pv with
  | zero =>
    rw [swapLoop]
    split
    · rw [(by omega : n - 1 - j = j)]
    · rfl
  | succ k ih =>
    have h1 : pv[i]? = some (pv.getD i 0) := by
      rw [List.getD_eq_getElem?_getD, List.getElem?_eq_getElem (by omega), Option.getD_some]
    have h2 : pv[n - 1 - i]? = some (pv.getD (n - 1 - i) 0) := by
      rw [List.getD_eq_getElem?_getD, List.getElem?_eq_getElem (by omega), Option.getD_some]
    rw [swapLoop, ih (by rw [List.length_set, List.length_set, hn]) (by omega)]
    simp only [List.getElem?_set, List.length_set, hn]
    by_cases hi : j = i
    · subst hi
      rw [if_neg (by omega), if_neg (by omega), if_pos rfl, if_pos (by omega), if_pos (by omega),
        h2]
    · by_cases hr : j = n - 1 - i
      · subst hr
        rw [if_neg (by omega), if_pos rfl, if_pos (by omega), if_pos (by omega),
          (by omega : n - 1 - (n - 1 - i) = i), h1]
      · by_cases hm : i ≤ j ∧ j < n - i
        · rw [if_pos (by omega), if_neg (by omega), if_neg (by omega), if_pos hm]
        · rw [if_neg (by omega), if_neg (by omega), if_neg (by omega), if_neg hm]

/-- Swapping in place reverses the bytes. -/
theorem swapInPlace_eq_reverse (pv : List UInt8) : swapInPlace pv = pv.reverse := by
  rw [swapInPlace]
  split
  · apply List.ext_getElem?
    intro j
    rw [getElem?_swapLoop rfl (by omega)]
    split
    · rw [List.getElem?_reverse (by omega)]
    · rw [List.getElem?_eq_none (by omega),
        List.getElem?_eq_none (by rw [List.length_reverse]; omega)]
  · match pv with
    | [] => rfl
    | [_] => rfl
    | _ :: _ :: _ => simp_all

/-! ### Streams -/

/-- `CtrlrFx/BinStreamBase.h:41–45`. -/
inductive ByteOrder where
  | littleEndian
  | bigEndian
  deriving DecidableEq, Repr

/-- Looks at the first byte of the word 1; `src/io/BinStream/BinStreamBase.cpp:30–36`. -/
def hostByteOrder (e : Endian) : ByteOrder :=
  if (NativeRep.bytes e (1 : Int32)).headD 0 = 1 then .littleEndian else .bigEndian

/-- `src/io/BinStream/BinStreamBase.cpp:41–47`. -/
def swappedByteOrder (e : Endian) : ByteOrder :=
  if (NativeRep.bytes e (1 : Int32)).headD 0 = 1 then .bigEndian else .littleEndian

/-- Members of a stream; `CtrlrFx/BinStreamBase.h:72–75`. -/
structure BinStream (δ : Type) where
  state : IoState
  buf : BinStreamBuf δ
  swap : Bool
  align : Bool
  deriving DecidableEq, Repr

namespace BinStream

variable {δ : Type}

/-- `CtrlrFx/BinStreamBase.h:85–86`. -/
def init (buf : BinStreamBuf δ) : BinStream δ :=
  { state := goodbit, buf, swap := false, align := false }

/-- `CtrlrFx/BinStreamBase.h:116`. -/
def good (s : BinStream δ) : Bool := s.state == goodbit

/-- `CtrlrFx/BinStreamBase.h:118`. -/
def fail (s : BinStream δ) : Bool := s.state &&& failbit != 0

/-- `CtrlrFx/BinStreamBase.h:117`. -/
def eof (s : BinStream δ) : Bool := s.state &&& eofbit != 0

/-- `src/io/BinStream/BinStreamBase.cpp:57–60`. -/
def setByteOrder (e : Endian) (s : BinStream δ) (order : ByteOrder) : BinStream δ :=
  { s with swap := order == swappedByteOrder e }

/-- `CtrlrFx/BinStreamBase.h:109`. -/
def setAlign (s : BinStream δ) (on : Bool) : BinStream δ := { s with align := on }

variable (v : Overrides δ)

/-! ### Input -/

/-- `InBinStream::get`; `src/io/BinStream/BinStream.cpp:47–56`. -/
def get (s : BinStream δ) : Int × BinStream δ :=
  let c := s.buf.sbumpc v
  (c.1, { s with state := if c.1 < 0 then goodbit ||| (eofbit ||| failbit) else goodbit,
                 buf := c.2 })

/-- `InBinStream::get` of a block, with the bytes that are stored;
`src/io/BinStream/BinStream.cpp:70–76`. -/
def getBlock (s : BinStream δ) (n : Nat) : List UInt8 × BinStream δ :=
  let r := s.buf.xsgetn v n
  (r.1, { s with state := if r.1.length < n then goodbit ||| (eofbit ||| failbit) else goodbit,
                 buf := r.2 })

/-- `swap_bytes`, where bytes are to be swapped; `CtrlrFx/BinStream.h:93–94,220–221`. -/
def swapBytes (swap : Bool) (bs : List UInt8) : List UInt8 := if swap then swapInPlace bs else bs

/-- `InBinStream::extract` into a variable that holds `old`, of which the bytes that are not
stored stay; `CtrlrFx/BinStream.h:86–97`. -/
def extract (e : Endian) {α : Type} [NativeRep α] (s : BinStream δ) (old : α) : α × BinStream δ :=
  let n := NativeRep.size α
  let s := if s.align then { s with buf := s.buf.galign v n } else s
  let r := s.getBlock v n
  (NativeRep.value e (swapBytes s.swap (r.1 ++ (NativeRep.bytes e old).drop r.1.length)), r.2)

/-- Extraction of a word that is taken as it comes; `CtrlrFx/BinStream.h:137–145`. -/
def getRaw (e : Endian) {α : Type} [NativeRep α] (s : BinStream δ) (old : α) : α × BinStream δ :=
  let r := s.getBlock v (NativeRep.size α)
  (NativeRep.value e (r.1 ++ (NativeRep.bytes e old).drop r.1.length), r.2)

/-! ### Output -/

/-- `OutBinStream::put`; `src/io/BinStream/BinStream.cpp:118–124`. -/
def put (s : BinStream δ) (x : UInt8) : BinStream δ :=
  let c := s.buf.sputc v x
  { s with state := if c.1 < 0 then goodbit ||| failbit else goodbit, buf := c.2 }

/-- `OutBinStream::write`; `src/io/BinStream/BinStream.cpp:126–132`. -/
def write (s : BinStream δ) (bs : List UInt8) : BinStream δ :=
  let r := s.buf.xsputn v bs
  { s with state := if r.1 < bs.length then goodbit ||| failbit else goodbit, buf := r.2 }

/-- `OutBinStream::flush`; `src/io/BinStream/BinStream.cpp:134–140`. -/
def flush (s : BinStream δ) : BinStream δ :=
  let c := v.sync s.buf
  { s with state := if c.1 < 0 then goodbit ||| failbit else goodbit, buf := c.2 }

/-- `OutBinStream::insert`; `CtrlrFx/BinStream.h:215–225`. -/
def insert (e : Endian) {α : Type} [NativeRep α] (s : BinStream δ) (x : α) : BinStream δ :=
  let s := if s.align then { s with buf := s.buf.palign v (NativeRep.size α) } else s
  s.write v (swapBytes s.swap (NativeRep.bytes e x))

end BinStream

/-- A value of one of the types of a stream; a `float` and a `double` as the word of its bits. -/
inductive Val where
  | bool (b : Bool)
  | byte (x : UInt8)
  | schar (x : Int8)
  | int16 (x : Int16)
  | uint16 (x : UInt16)
  | int32 (x : Int32)
  | uint32 (x : UInt32)
  | float (w : UInt32)
  | double (w : UInt64)
  deriving DecidableEq, Repr

namespace Val

/-- Values of one type. -/
def SameType : Val → Val → Prop
  | bool _, bool _ | byte _, byte _ | schar _, schar _ | int16 _, int16 _ | uint16 _, uint16 _
  | int32 _, int32 _ | uint32 _, uint32 _ | float _, float _ | double _, double _ => True
  | _, _ => False

section Stream

variable {δ : Type} (v : Overrides δ) (e : Endian)

/-- The inserters; `CtrlrFx/BinStream.h:229–272`. -/
def insert (s : BinStream δ) : Val → BinStream δ
  | bool b => s.put v (if b then 1 else 0)
  | byte x => s.put v x
  | schar x => s.put v x.toUInt8
  | int16 x => s.insert v e x
  | uint16 x => s.insert v e x
  | int32 x => s.insert v e x
  | uint32 x => s.insert v e x
  | float w => s.write v (NativeRep.bytes e w)
  | double w => s.write v (NativeRep.bytes e w)

/-- The extractors, into a variable; `CtrlrFx/BinStream.h:99–145`. -/
def extract (s : BinStream δ) : Val → Val × BinStream δ
  | bool _ => let r := s.get v; (bool (decide (r.1 > 0)), r.2)
  | byte _ => let r := s.get v; (byte (UInt8.ofInt r.1), r.2)
  | schar _ => let r := s.get v; (schar (Int8.ofInt r.1), r.2)
  | int16 x => let r := s.extract v e x; (int16 r.1, r.2)
  | uint16 x => let r := s.extract v e x; (uint16 r.1, r.2)
  | int32 x => let r := s.extract v e x; (int32 r.1, r.2)
  | uint32 x => let r := s.extract v e x; (uint32 r.1, r.2)
  | float w => let r := s.getRaw v e w; (float r.1, r.2)
  | double w => let r := s.getRaw v e w; (double r.1, r.2)

/-- Inserts values in order, and tells how the stream was after each. -/
def insertAll (s : BinStream δ) : List Val → List IoState × BinStream δ
  | [] => ([], s)
  | x :: xs =>
    let s' := x.insert v e s
    let r := insertAll s' xs
    (s'.state :: r.1, r.2)

/-- Extracts values in order into a list of variables, and tells how the stream was after
each. -/
def extractAll (s : BinStream δ) : List Val → List Val × List IoState × BinStream δ
  | [] => ([], [], s)
  | old :: olds =>
    let r := old.extract v e s
    let rs := extractAll r.2 olds
    (r.1 :: rs.1, r.2.state :: rs.2.1, rs.2.2)

end Stream

theorem insertAll_append {δ : Type} (v : Overrides δ) (e : Endian) (s : BinStream δ)
    (xs ys : List Val) : (insertAll v e s (xs ++ ys)).1 =
      (insertAll v e s xs).1 ++ (insertAll v e (insertAll v e s xs).2 ys).1 := by
  induction xs generalizing s with
  | nil => rfl
  | cons x xs ih => exact congrArg _ (ih _)

/-! ### Layout -/

/-- What a value is aligned to: its size, for a type whose values are padded. -/
def alignment (align : Bool) : Val → Nat
  | bool _ | byte _ | schar _ | float _ | double _ => 1
  | int16 _ | uint16 _ => if align then 2 else 1
  | int32 _ | uint32 _ => if align then 4 else 1

/-- The bytes of a value, of which those of words that are not taken as they come may be
swapped. -/
def bytes (e : Endian) (swap : Bool) : Val → List UInt8
  | bool b => [if b then 1 else 0]
  | byte x => [x]
  | schar x => [x.toUInt8]
  | int16 x => BinStream.swapBytes swap (NativeRep.bytes e x)
  | uint16 x => BinStream.swapBytes swap (NativeRep.bytes e x)
  | int32 x => BinStream.swapBytes swap (NativeRep.bytes e x)
  | uint32 x => BinStream.swapBytes swap (NativeRep.bytes e x)
  | float w => NativeRep.bytes e w
  | double w => NativeRep.bytes e w

/-- Zero bytes from position `p` up to where a value goes. -/
def gap (align : Bool) (p : Nat) (x : Val) : List UInt8 :=
  List.replicate (roundUp (x.alignment align) p - p) 0

/-- The bytes of a list of values that begins at position `p`. -/
def image (e : Endian) (swap align : Bool) (p : Nat) : List Val → List UInt8
  | [] => []
  | x :: xs =>
    let bs := x.gap align p ++ x.bytes e swap
    bs ++ image e swap align (p + bs.length) xs

theorem alignment_pos (align : Bool) (x : Val) : 0 < x.alignment align := by
  cases x <;> cases align <;> exact Nat.succ_pos _

theorem SameType.alignment {x old : Val} (h : SameType old x) (align : Bool) :
    old.alignment align = x.alignment align := by
  cases x <;> cases old <;> first | rfl | exact h.elim

end Val

/-! ### Steps -/

namespace BinStream

variable {δ : Type} {v : Overrides δ} {e : Endian}

@[simp] theorem swapBytes_swapBytes (swap : Bool) (bs : List UInt8) :
    swapBytes swap (swapBytes swap bs) = bs := by
  cases swap with
  | false => rfl
  | true =>
    change swapInPlace (swapInPlace bs) = bs
    rw [swapInPlace_eq_reverse, swapInPlace_eq_reverse, List.reverse_reverse]

@[simp] theorem length_swapBytes (swap : Bool) (bs : List UInt8) :
    (swapBytes swap bs).length = bs.length := by
  cases swap with
  | false => rfl
  | true =>
    change (swapInPlace bs).length = bs.length
    rw [swapInPlace_eq_reverse, List.length_reverse]

/-- A state that shows whether something was missing is good where nothing was. -/
theorem good_ite {c : Prop} [Decidable c] {bits : IoState} (hb : (bits == goodbit) = false) :
    ((if c then bits else goodbit) == goodbit) = true ↔ ¬c := by
  by_cases h : c
  · simp [h, hb]
  · simp [h]

variable {K : BinStreamBuf δ → List UInt8 → Prop}

/-- No byte is refused. -/
def Takes (v : Overrides δ) (K : BinStreamBuf δ → List UInt8 → Prop) : Prop :=
  ∀ b acc x, K b acc → 0 ≤ (b.sputc v x).1

theorem xsputn_short {b : BinStreamBuf δ} {bs : List UInt8} (h : bs.length < 2 ^ 31) :
    b.xsputn v bs = BinStreamBuf.putEach v bs b := by
  apply @BinStreamBuf.xsputn_eq_putEach δ v fun n _ ↦ n < 2 ^ 31
  · intro n b hn
    omega
  · intro n b x hn
    omega
  · exact h

theorem xsgetn_short {b : BinStreamBuf δ} {n : Nat} (h : n < 2 ^ 31) :
    b.xsgetn v n = BinStreamBuf.getEach v n b := by
  apply @BinStreamBuf.xsgetn_eq_getEach δ v fun n _ ↦ n < 2 ^ 31
  · intro n b hn
    omega
  · intro n b hn
    omega
  · exact h

theorem put_good_iff {s : BinStream δ} {x : UInt8} :
    (s.put v x).good ↔ 0 ≤ (s.buf.sputc v x).1 := by
  rw [put, good, good_ite (by decide)]
  omega

theorem write_good_iff {s : BinStream δ} {bs : List UInt8} :
    (s.write v bs).good ↔ bs.length ≤ (s.buf.xsputn v bs).1 := by
  rw [write, good, good_ite (by decide)]
  omega

theorem put_law (hl : BinStreamBuf.PutLaw v K) {s : BinStream δ} {acc : List UInt8}
    (h : K s.buf acc) {x : UInt8} (hg : (s.put v x).good) : K (s.put v x).buf (acc ++ [x]) :=
  hl.kept x h (put_good_iff.mp hg)

theorem write_law (hl : BinStreamBuf.PutLaw v K) {s : BinStream δ} {acc : List UInt8}
    (h : K s.buf acc) {bs : List UInt8} (hn : bs.length < 2 ^ 31) (hg : (s.write v bs).good) :
    K (s.write v bs).buf (acc ++ bs) := by
  have hx := hl.putEach h bs
  rw [write_good_iff, xsputn_short hn] at hg
  rw [List.take_of_length_le hg] at hx
  rw [write, xsputn_short hn]
  exact hx

/-- Where bytes were written behind padding, the padding is there in full too. -/
theorem write_palign_law (hl : BinStreamBuf.FirmPutLaw v K) {s : BinStream δ} {acc : List UInt8}
    (h : K s.buf acc) {n : Nat} {bs : List UInt8} (h0 : 0 < bs.length) (hn : bs.length < 2 ^ 31)
    (hg : (write v { s with buf := s.buf.palign v n } bs).good) :
    K (write v { s with buf := s.buf.palign v n } bs).buf
      (acc ++ (List.replicate (BinStreamBuf.padding s.buf.pbase s.buf.pptr n) 0 ++ bs)) := by
  rw [write_good_iff, xsputn_short hn] at hg
  rw [write, xsputn_short hn, ← List.append_assoc]
  exact hl.putZeros_putEach h h0 hg

/-- Padding and bytes are there in full where a value was inserted. -/
theorem insert_law (hl : BinStreamBuf.FirmPutLaw v K) {α : Type} [NativeRep α]
    {s : BinStream δ} {acc : List UInt8} (h : K s.buf acc) {x : α}
    (h0 : 0 < NativeRep.size α) (hn : NativeRep.size α < 2 ^ 31)
    (hg : (s.insert v e x).good) :
    K (s.insert v e x).buf (acc ++ (List.replicate
      (BinStreamBuf.padding s.buf.pbase s.buf.pptr (if s.align then NativeRep.size α else 1)) 0 ++
        swapBytes s.swap (NativeRep.bytes e x))) := by
  have hlen : (swapBytes s.swap (NativeRep.bytes e x)).length = NativeRep.size α := by
    rw [length_swapBytes, NativeRep.length_bytes]
  have hpos : 0 < (swapBytes s.swap (NativeRep.bytes e x)).length := by omega
  have hlt : (swapBytes s.swap (NativeRep.bytes e x)).length < 2 ^ 31 := by omega
  rw [insert] at hg ⊢
  split at hg
  · next ha =>
    rw [if_pos ha, if_pos ha]
    exact write_palign_law hl h hpos hlt hg
  · next ha =>
    rw [if_neg ha, if_neg ha, BinStreamBuf.padding_one, List.replicate_zero, List.nil_append]
    exact write_law hl.toPutLaw h hlt hg

theorem putEach_takes (hl : BinStreamBuf.PutLaw v K) (ht : Takes v K) {b : BinStreamBuf δ}
    {acc : List UInt8} (h : K b acc) (bs : List UInt8) :
    (BinStreamBuf.putEach v bs b).1 = bs.length := by
  induction bs generalizing b acc with
  | nil => rfl
  | cons x xs ih =>
    have h0 := ht b acc x h
    rw [BinStreamBuf.putEach, if_neg (by omega)]
    exact congrArg (· + 1) (ih (hl.kept x h h0))

theorem putZeros_takes (hl : BinStreamBuf.PutLaw v K) (ht : Takes v K) {b : BinStreamBuf δ}
    {acc : List UInt8} (h : K b acc) (n : Nat) : ∃ acc', K (BinStreamBuf.putZeros v n b) acc' := by
  induction n generalizing b acc with
  | zero => exact ⟨acc, h⟩
  | succ n ih => exact ih (hl.kept 0 h (ht b acc 0 h))

theorem write_takes (hl : BinStreamBuf.PutLaw v K) (ht : Takes v K) {s : BinStream δ}
    {acc : List UInt8} (h : K s.buf acc) {bs : List UInt8} (hn : bs.length < 2 ^ 31) :
    (s.write v bs).good := by
  rw [write_good_iff, xsputn_short hn, putEach_takes hl ht h]

theorem insert_takes (hl : BinStreamBuf.PutLaw v K) (ht : Takes v K) {α : Type} [NativeRep α]
    {s : BinStream δ} {acc : List UInt8} (h : K s.buf acc) {x : α}
    (hn : NativeRep.size α < 2 ^ 31) : (s.insert v e x).good := by
  have hlen : (swapBytes s.swap (NativeRep.bytes e x)).length < 2 ^ 31 := by
    rwa [length_swapBytes, NativeRep.length_bytes]
  rw [insert]
  split
  · rcases putZeros_takes hl ht h
      (BinStreamBuf.padding s.buf.pbase s.buf.pptr (NativeRep.size α)) with ⟨acc', hk⟩
    exact write_takes hl ht hk hlen
  · exact write_takes hl ht h hlen

/-- A block is got as it comes next. -/
theorem getBlock_law {content : List UInt8} {G : BinStreamBuf δ → Nat → Prop}
    (hl : BinStreamBuf.GetLaw v content G) {s : BinStream δ} {p n : Nat} (h : G s.buf p)
    (hn : n < 2 ^ 31) (hc : p + n ≤ content.length) :
    (s.getBlock v n).1 = Block.read content p n ∧ (s.getBlock v n).2.good ∧
      G (s.getBlock v n).2.buf (p + n) := by
  rcases hl.getEach h hc with ⟨hr, hk⟩
  have hlen := Block.length_read content p n hc
  simp only [getBlock, xsgetn_short hn, hr, good]
  refine ⟨trivial, ?_, hk⟩
  rw [good_ite (by decide)]
  omega

theorem get_law {content : List UInt8} {G : BinStreamBuf δ → Nat → Prop}
    (hl : BinStreamBuf.GetLaw v content G) {s : BinStream δ} {p : Nat} (h : G s.buf p)
    (hc : p < content.length) :
    (s.get v).1 = (content[p].toNat : Int) ∧ (s.get v).2.good ∧ G (s.get v).2.buf (p + 1) := by
  rcases hl.got h hc with ⟨hr, hk⟩
  simp only [get, hr, good]
  refine ⟨trivial, ?_, hk⟩
  rw [good_ite (by decide)]
  omega

/-- A word is extracted from behind the padding. -/
theorem extract_law {content : List UInt8} {G : BinStreamBuf δ → Nat → Prop}
    (hl : BinStreamBuf.GetLaw v content G) {α : Type} [NativeRep α] {s : BinStream δ} {p : Nat}
    (h : G s.buf p) {x old : α} {pad : Nat} (h0 : 0 < NativeRep.size α)
    (hn : NativeRep.size α < 2 ^ 31)
    (hp : s.align = true → BinStreamBuf.padding s.buf.eback s.buf.gptr (NativeRep.size α) = pad)
    (hpad : s.align = false → pad = 0) (hle : p + pad + NativeRep.size α ≤ content.length)
    (hc : Block.read content (p + pad) (NativeRep.size α) =
      swapBytes s.swap (NativeRep.bytes e x)) :
    (s.extract v e old).1 = x ∧ (s.extract v e old).2.good ∧
      G (s.extract v e old).2.buf (p + pad + NativeRep.size α) := by
  have hstep : ∀ t : BinStream δ, t.swap = s.swap → G t.buf (p + pad) →
      NativeRep.value e (swapBytes t.swap ((t.getBlock v (NativeRep.size α)).1 ++
        (NativeRep.bytes e old).drop (t.getBlock v (NativeRep.size α)).1.length)) = x ∧
      (t.getBlock v (NativeRep.size α)).2.good ∧
      G (t.getBlock v (NativeRep.size α)).2.buf (p + pad + NativeRep.size α) := by
    intro t ht hk
    rcases getBlock_law hl hk hn hle with ⟨hr, hg, hk'⟩
    have hd :
        (NativeRep.bytes e old).drop (swapBytes s.swap (NativeRep.bytes e x)).length = [] := by
      rw [length_swapBytes, NativeRep.length_bytes, List.drop_eq_nil_iff, NativeRep.length_bytes]
    refine ⟨?_, hg, hk'⟩
    rw [hr, hc, hd, List.append_nil, ht, swapBytes_swapBytes, NativeRep.value_bytes]
  rw [extract]
  split
  · next ha =>
    apply hstep
    · rfl
    · rw [BinStreamBuf.galign, hp ha]
      exact hl.skip h (by omega)
  · next ha =>
    have hz := hpad (Bool.eq_false_iff.mpr ha)
    apply hstep
    · rfl
    · rw [hz]
      exact h

end BinStream

namespace Val

variable {δ : Type} {v : Overrides δ} {e : Endian}

theorem gap_of_one {align : Bool} {p : Nat} {x : Val} (h : x.alignment align = 1) :
    x.gap align p = [] := by
  rw [gap, h, roundUp_of_dvd Nat.one_pos (Nat.one_dvd _), Nat.sub_self, List.replicate_zero]

@[simp] theorem length_gap (align : Bool) (p : Nat) (x : Val) :
    (x.gap align p).length = roundUp (x.alignment align) p - p := List.length_replicate

/-- Inserters leave the settings as they are. -/
theorem insert_settings (s : BinStream δ) (x : Val) :
    (x.insert v e s).swap = s.swap ∧ (x.insert v e s).align = s.align := by
  cases x <;> simp only [insert, BinStream.put, BinStream.write, BinStream.insert, and_self] <;>
    split <;> exact ⟨rfl, rfl⟩

/-- Extractors leave the settings as they are. -/
theorem extract_settings (s : BinStream δ) (x : Val) :
    (x.extract v e s).2.swap = s.swap ∧ (x.extract v e s).2.align = s.align := by
  cases x <;> simp only [extract, BinStream.get, BinStream.getRaw, BinStream.getBlock,
    BinStream.extract, and_self] <;> split <;> exact ⟨rfl, rfl⟩

/-- Zero bytes that are put before a value. -/
def pad (s : BinStream δ) (x : Val) : List UInt8 :=
  List.replicate (BinStreamBuf.padding s.buf.pbase s.buf.pptr (x.alignment s.align)) 0

theorem pad_of_one {s : BinStream δ} {x : Val} (h : x.alignment s.align = 1) : x.pad s = [] := by
  rw [pad, h, BinStreamBuf.padding_one, List.replicate_zero]

/-- A value that was inserted without failure is behind what was there, and its padding before
it. -/
theorem insert_law {K : BinStreamBuf δ → List UInt8 → Prop} (hl : BinStreamBuf.FirmPutLaw v K)
    {s : BinStream δ} {acc : List UInt8} (h : K s.buf acc) {x : Val}
    (hg : (x.insert v e s).good) :
    K (x.insert v e s).buf (acc ++ (x.pad s ++ x.bytes e s.swap)) := by
  cases x with
  | bool b =>
    rw [pad_of_one rfl]
    exact BinStream.put_law hl.toPutLaw h hg
  | byte x =>
    rw [pad_of_one rfl]
    exact BinStream.put_law hl.toPutLaw h hg
  | schar x =>
    rw [pad_of_one rfl]
    exact BinStream.put_law hl.toPutLaw h hg
  | int16 x => exact BinStream.insert_law hl h (by decide) (by decide) hg
  | uint16 x => exact BinStream.insert_law hl h (by decide) (by decide) hg
  | int32 x => exact BinStream.insert_law hl h (by decide) (by decide) hg
  | uint32 x => exact BinStream.insert_law hl h (by decide) (by decide) hg
  | float w =>
    rw [pad_of_one rfl]
    exact BinStream.write_law hl.toPutLaw h (by rw [NativeRep.length_bytes]; decide) hg
  | double w =>
    rw [pad_of_one rfl]
    exact BinStream.write_law hl.toPutLaw h (by rw [NativeRep.length_bytes]; decide) hg

/-- Where no byte is refused no value is. -/
theorem insert_takes {K : BinStreamBuf δ → List UInt8 → Prop} (hl : BinStreamBuf.PutLaw v K)
    (ht : BinStream.Takes v K) {s : BinStream δ} {acc : List UInt8} (h : K s.buf acc) (x : Val) :
    (x.insert v e s).good := by
  cases x with
  | bool b => exact BinStream.put_good_iff.mpr (ht _ _ _ h)
  | byte x => exact BinStream.put_good_iff.mpr (ht _ _ _ h)
  | schar x => exact BinStream.put_good_iff.mpr (ht _ _ _ h)
  | int16 x => exact BinStream.insert_takes hl ht h (by decide)
  | uint16 x => exact BinStream.insert_takes hl ht h (by decide)
  | int32 x => exact BinStream.insert_takes hl ht h (by decide)
  | uint32 x => exact BinStream.insert_takes hl ht h (by decide)
  | float w => exact BinStream.write_takes hl ht h (by rw [NativeRep.length_bytes]; decide)
  | double w => exact BinStream.write_takes hl ht h (by rw [NativeRep.length_bytes]; decide)

theorem scharOf_toNat (x : Int8) : Int8.ofInt (x.toUInt8.toNat : Int) = x := by
  have h : Int8.ofNat x.toUInt8.toNat = x.toUInt8.toInt8 := by
    rw [← UInt8.toInt8_ofNat', UInt8.ofNat_toNat]
  rw [Int8.ofInt_eq_ofNat, h, Int8.toInt8_toUInt8]

/-- What lies behind a position is read there. -/
theorem read_of_prefix {content xs ys : List UInt8} {p : Nat} (h : xs ++ ys <+: content.drop p)
    (hy : 0 < ys.length) :
    p + xs.length + ys.length ≤ content.length ∧
      Block.read content (p + xs.length) ys.length = ys := by
  rcases h with ⟨zs, hz⟩
  have hl := congrArg List.length hz
  simp only [List.length_append, List.length_drop] at hl
  constructor
  · omega
  · rw [Block.read, ← List.drop_drop, ← hz, List.append_assoc, List.drop_left, List.take_left]

section Extract

variable {content : List UInt8} {G : BinStreamBuf δ → Nat → Prop} {s : BinStream δ} {p : Nat}
  {x : Val}

/-- The case of a word that may be padded and swapped. -/
theorem extract_word (hl : BinStreamBuf.GetLaw v content G) (h : G s.buf p)
    (hp : s.align = true → BinStreamBuf.padding s.buf.eback s.buf.gptr (x.alignment true) =
      roundUp (x.alignment true) p - p)
    (hc : x.gap s.align p ++ x.bytes e s.swap <+: content.drop p) {α : Type} [NativeRep α]
    (y o : α) (h0 : 0 < NativeRep.size α) (hn : NativeRep.size α < 2 ^ 31)
    (ht : x.alignment true = NativeRep.size α) (hf : x.alignment false = 1)
    (hb : x.bytes e s.swap = BinStream.swapBytes s.swap (NativeRep.bytes e y)) :
    (s.extract v e o).1 = y ∧ (s.extract v e o).2.good ∧
      G (s.extract v e o).2.buf (p + (x.gap s.align p ++ x.bytes e s.swap).length) := by
  have hlen : (x.bytes e s.swap).length = NativeRep.size α := by
    rw [hb, BinStream.length_swapBytes, NativeRep.length_bytes]
  rcases read_of_prefix hc (by omega) with ⟨hle, hr⟩
  rw [hlen] at hle hr
  rw [List.length_append, hlen, ← Nat.add_assoc]
  apply BinStream.extract_law hl h h0 hn
  · intro ha
    rw [← ht, hp ha, length_gap, ha]
  · intro ha
    rw [ha, gap_of_one hf]
    rfl
  · exact hle
  · rw [hr, hb]

/-- The case of a word that is taken as it comes. -/
theorem extract_raw (hl : BinStreamBuf.GetLaw v content G) (h : G s.buf p)
    (hc : x.gap s.align p ++ x.bytes e s.swap <+: content.drop p) {α : Type} [NativeRep α]
    (y o : α) (h0 : 0 < NativeRep.size α) (hn : NativeRep.size α < 2 ^ 31)
    (h1 : x.alignment s.align = 1) (hb : x.bytes e s.swap = NativeRep.bytes e y) :
    (s.getRaw v e o).1 = y ∧ (s.getRaw v e o).2.good ∧
      G (s.getRaw v e o).2.buf (p + (x.gap s.align p ++ x.bytes e s.swap).length) := by
  rw [gap_of_one h1, hb] at hc ⊢
  rcases read_of_prefix hc (by rw [NativeRep.length_bytes]; omega) with ⟨hle, hr⟩
  rw [List.length_nil, Nat.add_zero, NativeRep.length_bytes] at hle hr
  rcases BinStream.getBlock_law hl h hn hle with ⟨hr', hg, hk⟩
  have hd : (NativeRep.bytes e o).drop (NativeRep.bytes e y).length = [] := by
    rw [NativeRep.length_bytes, List.drop_eq_nil_iff, NativeRep.length_bytes]
  rw [List.nil_append, NativeRep.length_bytes]
  refine ⟨?_, hg, hk⟩
  rw [BinStream.getRaw, hr', hr, hd, List.append_nil, NativeRep.value_bytes]

/-- The case of a single byte. -/
theorem extract_byte (hl : BinStreamBuf.GetLaw v content G) (h : G s.buf p)
    (hc : x.gap s.align p ++ x.bytes e s.swap <+: content.drop p) (y : UInt8)
    (h1 : x.alignment s.align = 1) (hb : x.bytes e s.swap = [y]) :
    (s.get v).1 = (y.toNat : Int) ∧ (s.get v).2.good ∧
      G (s.get v).2.buf (p + (x.gap s.align p ++ x.bytes e s.swap).length) := by
  rw [gap_of_one h1, hb] at hc ⊢
  rcases read_of_prefix hc (by rw [List.length_singleton]; omega) with ⟨hle, hr⟩
  rw [List.length_nil, Nat.add_zero, List.length_singleton] at hle hr
  rw [Block.read_succ _ _ _ (by omega), Block.read_zero, List.cons.injEq] at hr
  rw [← hr.1]
  exact BinStream.get_law hl h (by omega)

/-- A value that comes next in the content, behind its padding, is extracted. -/
theorem extract_law (hl : BinStreamBuf.GetLaw v content G) (h : G s.buf p) {old : Val}
    (ht : SameType old x)
    (hp : s.align = true → BinStreamBuf.padding s.buf.eback s.buf.gptr (x.alignment true) =
      roundUp (x.alignment true) p - p)
    (hc : x.gap s.align p ++ x.bytes e s.swap <+: content.drop p) :
    (old.extract v e s).1 = x ∧ (old.extract v e s).2.good ∧
      G (old.extract v e s).2.buf (p + (x.gap s.align p ++ x.bytes e s.swap).length) := by
  cases x with
  | bool b =>
    cases old with
    | bool o =>
      rcases extract_byte hl h hc _ rfl rfl with ⟨hv, hg, hk⟩
      refine ⟨?_, hg, hk⟩
      rw [extract, hv]
      cases b <;> rfl
    | _ => exact ht.elim
  | byte y =>
    cases old with
    | byte o =>
      rcases extract_byte hl h hc _ rfl rfl with ⟨hv, hg, hk⟩
      refine ⟨?_, hg, hk⟩
      rw [extract, hv, byteOf_toNat]
    | _ => exact ht.elim
  | schar y =>
    cases old with
    | schar o =>
      rcases extract_byte hl h hc _ rfl rfl with ⟨hv, hg, hk⟩
      refine ⟨?_, hg, hk⟩
      rw [extract, hv, scharOf_toNat]
    | _ => exact ht.elim
  | int16 y =>
    cases old with
    | int16 o =>
      rcases extract_word hl h hp hc y o (by decide) (by decide) rfl rfl rfl with ⟨hv, hg, hk⟩
      exact ⟨congrArg int16 hv, hg, hk⟩
    | _ => exact ht.elim
  | uint16 y =>
    cases old with
    | uint16 o =>
      rcases extract_word hl h hp hc y o (by decide) (by decide) rfl rfl rfl with ⟨hv, hg, hk⟩
      exact ⟨congrArg uint16 hv, hg, hk⟩
    | _ => exact ht.elim
  | int32 y =>
    cases old with
    | int32 o =>
      rcases extract_word hl h hp hc y o (by decide) (by decide) rfl rfl rfl with ⟨hv, hg, hk⟩
      exact ⟨congrArg int32 hv, hg, hk⟩
    | _ => exact ht.elim
  | uint32 y =>
    cases old with
    | uint32 o =>
      rcases extract_word hl h hp hc y o (by decide) (by decide) rfl rfl rfl with ⟨hv, hg, hk⟩
      exact ⟨congrArg uint32 hv, hg, hk⟩
    | _ => exact ht.elim
  | float y =>
    cases old with
    | float o =>
      rcases extract_raw hl h hc y o (by decide) (by decide) rfl rfl with ⟨hv, hg, hk⟩
      exact ⟨congrArg float hv, hg, hk⟩
    | _ => exact ht.elim
  | double y =>
    cases old with
    | double o =>
      rcases extract_raw hl h hc y o (by decide) (by decide) rfl rfl with ⟨hv, hg, hk⟩
      exact ⟨congrArg double hv, hg, hk⟩
    | _ => exact ht.elim

end Extract

/-! ### Runs -/

/-- Along an extraction the get area begins, for each value, at a multiple of what the value is
aligned to; `origin` says where it begins. -/
def Aligned (v : Overrides δ) (e : Endian) (origin : BinStreamBuf δ → Nat) (s : BinStream δ) :
    List Val → Prop
  | [] => True
  | old :: olds =>
    old.alignment s.align ∣ origin s.buf ∧ Aligned v e origin (old.extract v e s).2 olds

/-- Padding counted from a multiple is the padding counted from the begin. -/
theorem padding_origin {beg next p o n : Nat} (hn : 0 < n) (hb : beg ≤ next)
    (hp : p = o + (next - beg)) (hd : n ∣ o) :
    BinStreamBuf.padding beg next n = roundUp n p - p := by
  rw [BinStreamBuf.padding_eq hn hb, hp, roundUp_add _ hn hd]
  omega

/-- Values that come next in the content are extracted, each with the stream good behind it. -/
theorem extractAll_law {content : List UInt8} {G : BinStreamBuf δ → Nat → Prop}
    {origin : BinStreamBuf δ → Nat} (hl : BinStreamBuf.GetLaw v content G)
    (ho : ∀ b p, G b p → b.eback ≤ b.gptr ∧ p = origin b + (b.gptr - b.eback))
    {s : BinStream δ} {p : Nat} (h : G s.buf p) {xs olds : List Val}
    (ht : List.Forall₂ SameType olds xs) (ha : Aligned v e origin s olds)
    (hc : image e s.swap s.align p xs <+: content.drop p) :
    (extractAll v e s olds).1 = xs ∧
      (∀ st ∈ (extractAll v e s olds).2.1, st = IoState.goodbit) ∧
      G (extractAll v e s olds).2.2.buf (p + (image e s.swap s.align p xs).length) := by
  induction ht generalizing s p with
  | nil =>
    refine ⟨rfl, ?_, h⟩
    intro st hst
    exact absurd hst List.not_mem_nil
  | @cons old x olds xs ht _ ih =>
    rcases ha with ⟨hd, ha'⟩
    rcases ho _ _ h with ⟨hle, hp⟩
    have hfst : x.gap s.align p ++ x.bytes e s.swap <+: content.drop p :=
      (List.prefix_append _ _).trans hc
    have hstep := @extract_law δ v e content G s p x hl h old ht (by
      intro hon
      rw [← ht.alignment, ← hon]
      exact padding_origin (alignment_pos _ _) hle hp hd) hfst
    rcases hstep with ⟨hv, hg, hk⟩
    rcases @extract_settings δ v e s old with ⟨hsw, hal⟩
    have hrest : image e s.swap s.align (p + (x.gap s.align p ++ x.bytes e s.swap).length) xs <+:
        content.drop (p + (x.gap s.align p ++ x.bytes e s.swap).length) := by
      rcases hc with ⟨zs, hz⟩
      refine ⟨zs, ?_⟩
      rw [← List.drop_drop, ← hz, image, List.append_assoc, List.drop_left]
    have hi := ih hk ha' (by rwa [hsw, hal])
    rw [hsw, hal] at hi
    rcases hi with ⟨hvs, hgs, hks⟩
    refine ⟨?_, ?_, ?_⟩
    · rw [extractAll, hv, hvs]
    · intro st hst
      rcases List.mem_cons.mp hst with rfl | hst
      · exact eq_of_beq hg
      · exact hgs st hst
    · rw [image, List.length_append, ← Nat.add_assoc]
      exact hks

/-- The same of an insertion: the padding reaches up to where the layout has the value, and only
then. -/
theorem pad_eq_gap_iff {s : BinStream δ} {x : Val} {p o : Nat} (hle : s.buf.pbase ≤ s.buf.pptr)
    (hp : p = o + (s.buf.pptr - s.buf.pbase)) :
    x.pad s = x.gap s.align p ↔ x.alignment s.align ∣ o := by
  have hpos := alignment_pos s.align x
  constructor
  · intro heq
    have hlen := congrArg List.length heq
    rw [pad, gap, List.length_replicate, List.length_replicate, BinStreamBuf.padding_eq hpos hle,
      hp] at hlen
    exact (roundUp_sub_eq_iff _ hpos).mp hlen
  · intro hd
    rw [pad, gap, padding_origin hpos hle hp hd]

end Val
end CtrlrFx.Io
