import CtrlrFx.Base.Machine
import CtrlrFx.Io.MemBinStream

/-!
# Seeking in memory

`seekoff`, `seekpos` and `reset` of `src/io/BinStream/MemBinStream.cpp:52–130` and
`CtrlrFx/MemBinStream.h:61–68`, with the other calls that move over a memory buffer. The two
sides are moved one after the other, with one result for both, and places go through `int`.
-/

namespace CtrlrFx.Io
open Base

/-- `CtrlrFx/BinStreamBase.h:50`. -/
abbrev OpenMode := UInt32

namespace OpenMode

/-- `in`; `CtrlrFx/BinStreamBase.h:63`. -/
def in_ : OpenMode := 0x01

def out : OpenMode := 0x02

/-- `mode & in`, or `mode & out`. -/
def has (mode bit : OpenMode) : Bool := mode &&& bit != 0

end OpenMode

/-- `CtrlrFx/BinStreamBase.h:66–68`. -/
inductive SeekDir where
  | beg
  | cur
  | end_
  deriving DecidableEq, Repr

/-- The pointer of an area that a direction counts from. -/
def SeekDir.from_ : SeekDir → Nat → Nat → Nat → Nat
  | beg, lo, _, _ => lo
  | cur, _, next, _ => next
  | end_, _, _, hi => hi

namespace MemBinStreamBuf

/-- What `seekoff` does with the get area; `src/io/BinStream/MemBinStream.cpp:60–80`. -/
def seekoffIn (b : BinStreamBuf Unit) (off : Int) (dir : SeekDir) : Int × BinStreamBuf Unit :=
  let p := dir.from_ b.eback b.gptr b.egptr + toInt32 off
  if b.eback ≤ p ∧ p ≤ b.egptr then (p - b.eback, b.gbump (toInt32 (p - b.gptr))) else (-1, b)

/-- What `seekoff` does with the put area; `src/io/BinStream/MemBinStream.cpp:82–102`. -/
def seekoffOut (b : BinStreamBuf Unit) (off : Int) (dir : SeekDir) : Int × BinStreamBuf Unit :=
  let p := dir.from_ b.pbase b.pptr b.epptr + toInt32 off
  if b.pbase ≤ p ∧ p ≤ b.epptr then (p - b.pbase, b.pbump (toInt32 (p - b.pptr))) else (-1, b)

/-- `src/io/BinStream/MemBinStream.cpp:52–104`. -/
def seekoff (b : BinStreamBuf Unit) (off : Int) (dir : SeekDir) (mode : OpenMode) :
    Int × BinStreamBuf Unit :=
  let r := if mode.has .in_ then seekoffIn b off dir else (-1, b)
  if mode.has .out then seekoffOut r.2 off dir else r

/-- `(long) unsigned(-1)`, which a `long` holds; `src/io/BinStream/MemBinStream.cpp:113–116`. -/
def posMax : Int := 2 ^ 32 - 1

/-- `src/io/BinStream/MemBinStream.cpp:110–130`. -/
def seekpos (b : BinStreamBuf Unit) (pos : Int) (mode : OpenMode) : Int × BinStreamBuf Unit :=
  if 0 ≤ pos ∧ pos ≤ posMax then
    let r := if mode.has .in_ then (pos, b.gbump (toInt32 (pos + ((b.eback : Int) - b.gptr))))
      else (-1, b)
    if mode.has .out then (pos, r.2.pbump (toInt32 (pos + ((r.2.pbase : Int) - r.2.pptr)))) else r
  else (-1, b)

/-- `CtrlrFx/MemBinStream.h:61–68`. -/
def reset (b : BinStreamBuf Unit) (mode : OpenMode) : BinStreamBuf Unit :=
  let b := if mode.has .in_ then b.gbump (toInt32 ((b.eback : Int) - b.gptr)) else b
  if mode.has .out then b.pbump (toInt32 ((b.pbase : Int) - b.pptr)) else b

/-- Calls on a memory buffer. -/
inductive Op where
  | sbumpc
  | sgetc
  | sungetc
  | sputbackc (x : UInt8)
  | xsgetn (n : Nat)
  | galign (n : Nat)
  | sputc (x : UInt8)
  | xsputn (bs : List UInt8)
  | palign (n : Nat)
  | reset (mode : OpenMode)
  | seekoff (off : Int) (dir : SeekDir) (mode : OpenMode)
  | seekpos (pos : Int) (mode : OpenMode)
  deriving DecidableEq, Repr

/-- The buffer after a call. -/
def Op.after (b : BinStreamBuf Unit) : Op → BinStreamBuf Unit
  | sbumpc => (b.sbumpc virtuals).2
  | sgetc => (b.sgetc virtuals).2
  | sungetc => b.sungetc.2
  | sputbackc x => (b.sputbackc x).2
  | xsgetn n => (b.xsgetn virtuals n).2
  | galign n => b.galign virtuals n
  | sputc x => (b.sputc virtuals x).2
  | xsputn bs => (b.xsputn virtuals bs).2
  | palign n => b.palign virtuals n
  | reset mode => MemBinStreamBuf.reset b mode
  | seekoff off dir mode => (MemBinStreamBuf.seekoff b off dir mode).2
  | seekpos pos mode => (MemBinStreamBuf.seekpos b pos mode).2

/-- Calls one after another on a buffer over the first `n` bytes of a memory. -/
def calls (p : List UInt8) (n : Nat) : Machine (BinStreamBuf Unit) Op where
  init b := b = setbuf empty p n
  step b o := some (o.after b)

/-! ### Good seeks -/

/-- A seek that succeeds has each position that it is about at the place asked for, which is in
the area and for which it returns the offset. One that fails leaves both positions. -/
structure Sought (b : BinStreamBuf Unit) (mode : OpenMode) (p q : Int)
    (r : Int × BinStreamBuf Unit) : Prop where
  gets : 0 ≤ r.1 → mode.has .in_ → (r.2.gptr : Int) = p ∧ b.eback ≤ p ∧ p ≤ b.egptr ∧
    r.1 = p - b.eback
  puts : 0 ≤ r.1 → mode.has .out → (r.2.pptr : Int) = q ∧ b.pbase ≤ q ∧ q ≤ b.epptr ∧
    r.1 = q - b.pbase
  kept : r.1 = -1 → r.2.gptr = b.gptr ∧ r.2.pptr = b.pptr

/-- Both positions are in their areas. -/
structure Bounded (b : BinStreamBuf Unit) : Prop where
  eback_le : b.eback ≤ b.gptr
  gptr_le : b.gptr ≤ b.egptr
  pbase_le : b.pbase ≤ b.pptr
  pptr_le : b.pptr ≤ b.epptr

/-- A seek is good, and any call leaves the positions in their areas. -/
def Good (b : BinStreamBuf Unit) (o : Op) : Prop :=
  Bounded (o.after b) ∧ match o with
    | .seekoff off dir mode => Sought b mode (dir.from_ b.eback b.gptr b.egptr + off)
        (dir.from_ b.pbase b.pptr b.epptr + off) (seekoff b off dir mode)
    | .seekpos pos mode => Sought b mode (b.eback + pos) (b.pbase + pos) (seekpos b pos mode)
    | _ => True

/-- An `int` holds it. -/
def Fits (z : Int) : Prop := -2 ^ 31 ≤ z ∧ z < 2 ^ 31

/-- An offset after the conversion aims at a place in an area only if it is not changed by it,
and the way to that place fits an `int` too. -/
def OffFits (lo next hi : Nat) (dir : SeekDir) (off : Int) : Prop :=
  let p := dir.from_ lo next hi + toInt32 off
  lo ≤ p ∧ p ≤ hi → toInt32 off = off ∧ Fits (p - next)

/-- The same place of both areas is aimed at, or places outside of both. -/
def Together (b : BinStreamBuf Unit) (dir : SeekDir) (off : Int) : Prop :=
  let p := dir.from_ b.eback b.gptr b.egptr + toInt32 off
  let q := dir.from_ b.pbase b.pptr b.epptr + toInt32 off
  (b.eback ≤ p ∧ p ≤ b.egptr ↔ b.pbase ≤ q ∧ q ≤ b.epptr) ∧
    (b.eback ≤ p ∧ p ≤ b.egptr → p - b.eback = q - b.pbase)

/-- Where a call does what it should. -/
def Careful (b : BinStreamBuf Unit) : Op → Prop
  | .xsgetn n => min n (b.egptr - b.gptr) < 2 ^ 31
  | .xsputn bs => min bs.length (b.epptr - b.pptr) < 2 ^ 31
  | .reset mode => (mode.has .in_ → Fits ((b.eback : Int) - b.gptr)) ∧
      (mode.has .out → Fits ((b.pbase : Int) - b.pptr))
  | .seekoff off dir mode => (mode.has .in_ → OffFits b.eback b.gptr b.egptr dir off) ∧
      (mode.has .out → OffFits b.pbase b.pptr b.epptr dir off) ∧
      (mode.has .in_ → mode.has .out → Together b dir off)
  | .seekpos pos mode => 0 ≤ pos → pos ≤ posMax →
      (mode.has .in_ → b.eback + pos ≤ b.egptr ∧ Fits (pos + ((b.eback : Int) - b.gptr))) ∧
      (mode.has .out → b.pbase + pos ≤ b.epptr ∧ Fits (pos + ((b.pbase : Int) - b.pptr)))
  | _ => True

/-! ### Moves inside the areas -/

/-- Both areas are there and reach from `lo` to `hi`, with the positions in them. -/
structure Inside (lo hi : Nat) (b : BinStreamBuf Unit) : Prop extends Bounded b where
  get : b.get.isSome
  put : b.put.isSome
  eback_eq : b.eback = lo
  egptr_eq : b.egptr = hi
  pbase_eq : b.pbase = lo
  epptr_eq : b.epptr = hi

theorem toInt32_of_fits {z : Int} (h : Fits z) : toInt32 z = z := toInt32_of_lt z h.1 h.2

theorem setbuf_inside (p : List UInt8) (n : Nat) : Inside 0 n (setbuf empty p n) where
  eback_le := Nat.le_refl 0
  gptr_le := Nat.zero_le n
  pbase_le := Nat.le_refl 0
  pptr_le := Nat.zero_le n
  get := rfl
  put := rfl
  eback_eq := rfl
  egptr_eq := rfl
  pbase_eq := rfl
  epptr_eq := rfl

namespace Inside

variable {lo hi : Nat} {b : BinStreamBuf Unit}

/-- The get position moves inside of its area. -/
theorem gbump (h : Inside lo hi b) {d : Int} (hlo : b.eback ≤ b.gptr + d)
    (hhi : b.gptr + d ≤ b.egptr) :
    Inside lo hi (b.gbump d) ∧ ((b.gbump d).gptr : Int) = b.gptr + d := by
  have hg := BinStreamBuf.gptr_gbump_of_isSome h.get d
  have he := BinStreamBuf.eback_gbump b d
  have hf := BinStreamBuf.egptr_gbump b d
  constructor
  · constructor
    · constructor
      · omega
      · omega
      · exact h.pbase_le
      · exact h.pptr_le
    · rw [BinStreamBuf.gbump, Option.isSome_map]
      exact h.get
    · exact h.put
    · exact he.trans h.eback_eq
    · exact hf.trans h.egptr_eq
    · exact h.pbase_eq
    · exact h.epptr_eq
  · omega

/-- The put position moves inside of its area. -/
theorem pbump (h : Inside lo hi b) {d : Int} (hlo : b.pbase ≤ b.pptr + d)
    (hhi : b.pptr + d ≤ b.epptr) :
    Inside lo hi (b.pbump d) ∧ ((b.pbump d).pptr : Int) = b.pptr + d := by
  have hg := BinStreamBuf.pptr_pbump h.put d
  have he := BinStreamBuf.pbase_pbump b d
  have hf := BinStreamBuf.epptr_pbump b d
  constructor
  · constructor
    · constructor
      · exact h.eback_le
      · exact h.gptr_le
      · omega
      · omega
    · exact h.get
    · rw [BinStreamBuf.pbump, Option.isSome_map]
      exact h.put
    · exact h.eback_eq
    · exact h.egptr_eq
    · exact he.trans h.pbase_eq
    · exact hf.trans h.epptr_eq
  · omega

/-- What lies in the memory does not matter. -/
theorem with_mem (h : Inside lo hi b) (mem : List UInt8) : Inside lo hi { b with mem } :=
  ⟨⟨h.eback_le, h.gptr_le, h.pbase_le, h.pptr_le⟩, h.get, h.put, h.eback_eq, h.egptr_eq,
    h.pbase_eq, h.epptr_eq⟩

theorem sbumpc (h : Inside lo hi b) : Inside lo hi (b.sbumpc virtuals).2 := by
  by_cases hg : b.hasGet
  · have hlt := BinStreamBuf.hasGet_iff.mp hg
    have hle := h.eback_le
    rw [BinStreamBuf.sbumpc_of_hasGet hg]
    exact (h.gbump (by omega) (by omega)).1
  · rw [BinStreamBuf.sbumpc_of_not hg]
    exact h

theorem sgetc (h : Inside lo hi b) : Inside lo hi (b.sgetc virtuals).2 := by
  rw [BinStreamBuf.sgetc]
  split
  · exact h
  · exact h

theorem sungetc (h : Inside lo hi b) : Inside lo hi b.sungetc.2 := by
  by_cases hb : b.hasBack
  · have hlt := BinStreamBuf.hasBack_iff.mp hb
    have hle := h.gptr_le
    rw [BinStreamBuf.sungetc_of_hasBack hb]
    exact (h.gbump (by omega) (by omega)).1
  · rw [BinStreamBuf.sungetc_of_not hb]
    exact h

theorem sputbackc (h : Inside lo hi b) (x : UInt8) : Inside lo hi (b.sputbackc x).2 := by
  rcases b.sputbackc_cases x with ⟨-, hx⟩ | hn
  · rw [hx]
    exact h.sungetc
  · rw [hn]
    exact h

theorem sputc (h : Inside lo hi b) (x : UInt8) : Inside lo hi (b.sputc virtuals x).2 := by
  by_cases hp : b.hasPut
  · have hlt := BinStreamBuf.hasPut_iff.mp hp
    have hle := h.pbase_le
    have hx := (h.with_mem (Block.write b.mem b.pptr [x])).pbump (d := 1)
      (show (b.pbase : Int) ≤ b.pptr + 1 by omega) (show (b.pptr : Int) + 1 ≤ b.epptr by omega)
    rw [BinStreamBuf.sputc_of_hasPut hp, BinStreamBuf.copyIn, List.length_singleton, toInt32_one]
    exact hx.1
  · rw [BinStreamBuf.sputc_of_not hp]
    exact h

theorem xsgetn (h : Inside lo hi b) {n : Nat} (hn : min n (b.egptr - b.gptr) < 2 ^ 31) :
    Inside lo hi (b.xsgetn virtuals n).2 := by
  rw [BinStreamBuf.xsgetn_eq_getEach (Q := fun n b ↦ min n (b.egptr - b.gptr) < 2 ^ 31)]
  · exact BinStreamBuf.getEach_keeps (fun _ ↦ sbumpc) n h
  · exact fun _ _ hq ↦ hq
  · intro n b hq
    by_cases hg : b.hasGet
    · have hptr : (b.gbump 1).gptr = b.gptr + 1 := BinStreamBuf.gptr_gbump hg 1
      rw [BinStreamBuf.sbumpc_of_hasGet hg, BinStreamBuf.egptr_gbump, hptr]
      omega
    · rw [BinStreamBuf.sbumpc_of_not hg]
      show min n (b.egptr - b.gptr) < 2 ^ 31
      omega
  · exact hn

theorem xsputn (h : Inside lo hi b) {bs : List UInt8}
    (hn : min bs.length (b.epptr - b.pptr) < 2 ^ 31) : Inside lo hi (b.xsputn virtuals bs).2 := by
  rw [BinStreamBuf.xsputn_eq_putEach (Q := fun n b ↦ min n (b.epptr - b.pptr) < 2 ^ 31)]
  · exact BinStreamBuf.putEach_keeps (fun _ x hb ↦ hb.sputc x) bs h
  · exact fun _ _ hq ↦ hq
  · intro n b x hq
    by_cases hp : b.hasPut
    · have hptr := @BinStreamBuf.pptr_copyIn Unit b (BinStreamBuf.isSome_of_hasPut hp) [x]
        (show 1 < 2 ^ 31 by decide)
      rw [BinStreamBuf.sputc_of_hasPut hp, BinStreamBuf.epptr_copyIn, hptr, List.length_singleton]
      omega
    · rw [BinStreamBuf.sputc_of_not hp]
      show min n (b.epptr - b.pptr) < 2 ^ 31
      omega
  · exact hn

theorem reset (h : Inside lo hi b) {mode : OpenMode}
    (hin : mode.has .in_ → Fits ((b.eback : Int) - b.gptr))
    (hout : mode.has .out → Fits ((b.pbase : Int) - b.pptr)) : Inside lo hi (reset b mode) := by
  have hg := h.gptr_le
  have he := h.eback_le
  have hp := h.pptr_le
  have hb := h.pbase_le
  have hget : Inside lo hi
      (if mode.has .in_ then b.gbump (toInt32 ((b.eback : Int) - b.gptr)) else b) := by
    split
    · next hm =>
      rw [toInt32_of_fits (hin hm)]
      exact (h.gbump (by omega) (by omega)).1
    · exact h
  have hput : ∀ b', Inside lo hi b' → b'.put = b.put →
      Inside lo hi
        (if mode.has .out then b'.pbump (toInt32 ((b'.pbase : Int) - b'.pptr)) else b') := by
    intro b' h' heq
    have h1 : b'.pbase = b.pbase := congrArg (fun o ↦ (o.map Area.beg).getD 0) heq
    have h2 : b'.pptr = b.pptr := congrArg (fun o ↦ (o.map Area.next).getD 0) heq
    have hle := h'.pptr_le
    split
    · next hm =>
      rw [h1, h2, toInt32_of_fits (hout hm)]
      exact (h'.pbump (by omega) (by omega)).1
    · exact h'
  apply hput _ hget
  split <;> rfl

end Inside

/-! ### One side of a seek -/

/-- The positions and ends of the put area are those of another buffer. -/
theorem put_congr {b b' : BinStreamBuf Unit} (h : b'.put = b.put) :
    b'.pbase = b.pbase ∧ b'.pptr = b.pptr ∧ b'.epptr = b.epptr := by
  rw [BinStreamBuf.pbase, BinStreamBuf.pptr, BinStreamBuf.epptr, h]
  exact ⟨rfl, rfl, rfl⟩

theorem get_congr {b b' : BinStreamBuf Unit} (h : b'.get = b.get) :
    b'.eback = b.eback ∧ b'.gptr = b.gptr ∧ b'.egptr = b.egptr := by
  rw [BinStreamBuf.eback, BinStreamBuf.gptr, BinStreamBuf.egptr, h]
  exact ⟨rfl, rfl, rfl⟩

section Sides

variable {lo hi : Nat} {b : BinStreamBuf Unit} {off p : Int} {dir : SeekDir}

/-- A place in the get area is moved to, and one outside of it is not. -/
theorem seekoffIn_spec (h : Inside lo hi b)
    (hp : dir.from_ b.eback b.gptr b.egptr + toInt32 off = p)
    (hf : b.eback ≤ p ∧ p ≤ b.egptr → Fits (p - b.gptr)) :
    (b.eback ≤ p ∧ p ≤ b.egptr ∧ ∃ b', seekoffIn b off dir = (p - b.eback, b') ∧ Inside lo hi b' ∧
        (b'.gptr : Int) = p ∧ b'.put = b.put) ∨
      ¬(b.eback ≤ p ∧ p ≤ b.egptr) ∧ seekoffIn b off dir = (-1, b) := by
  by_cases hr : b.eback ≤ p ∧ p ≤ b.egptr
  · left
    rcases h.gbump (d := p - b.gptr) (by omega) (by omega) with ⟨hi, hg⟩
    refine ⟨hr.1, hr.2, b.gbump (p - b.gptr), ?_, hi, by omega, rfl⟩
    rw [seekoffIn, hp, if_pos hr, toInt32_of_fits (hf hr)]
  · right
    rw [seekoffIn, hp]
    exact ⟨hr, if_neg hr⟩

/-- A place in the put area is moved to, and one outside of it is not. -/
theorem seekoffOut_spec (h : Inside lo hi b)
    (hp : dir.from_ b.pbase b.pptr b.epptr + toInt32 off = p)
    (hf : b.pbase ≤ p ∧ p ≤ b.epptr → Fits (p - b.pptr)) :
    (b.pbase ≤ p ∧ p ≤ b.epptr ∧ ∃ b', seekoffOut b off dir = (p - b.pbase, b') ∧ Inside lo hi b' ∧
        (b'.pptr : Int) = p ∧ b'.get = b.get) ∨
      ¬(b.pbase ≤ p ∧ p ≤ b.epptr) ∧ seekoffOut b off dir = (-1, b) := by
  by_cases hr : b.pbase ≤ p ∧ p ≤ b.epptr
  · left
    rcases h.pbump (d := p - b.pptr) (by omega) (by omega) with ⟨hi, hg⟩
    refine ⟨hr.1, hr.2, b.pbump (p - b.pptr), ?_, hi, by omega, rfl⟩
    rw [seekoffOut, hp, if_pos hr, toInt32_of_fits (hf hr)]
  · right
    rw [seekoffOut, hp]
    exact ⟨hr, if_neg hr⟩

end Sides

theorem sought_iff {b : BinStreamBuf Unit} {mode : OpenMode} {p q : Int}
    {r : Int × BinStreamBuf Unit} : Sought b mode p q r ↔
      (0 ≤ r.1 → mode.has .in_ → (r.2.gptr : Int) = p ∧ b.eback ≤ p ∧ p ≤ b.egptr ∧
        r.1 = p - b.eback) ∧
      (0 ≤ r.1 → mode.has .out → (r.2.pptr : Int) = q ∧ b.pbase ≤ q ∧ q ≤ b.epptr ∧
        r.1 = q - b.pbase) ∧
      (r.1 = -1 → r.2.gptr = b.gptr ∧ r.2.pptr = b.pptr) :=
  ⟨fun h ↦ ⟨h.gets, h.puts, h.kept⟩, fun h ↦ ⟨h.1, h.2.1, h.2.2⟩⟩

section Seekoff

variable {lo hi : Nat} {b : BinStreamBuf Unit} {off : Int} {dir : SeekDir} {mode : OpenMode}
  {p q : Int}

/-- The get position alone is moved as asked for if the conversion does not change the offset. -/
theorem seekoff_in_iff (h : Inside lo hi b)
    (hp : dir.from_ b.eback b.gptr b.egptr + toInt32 off = p)
    (hf : b.eback ≤ p ∧ p ≤ b.egptr → Fits (p - b.gptr)) (hin : mode.has .in_)
    (hout : ¬mode.has .out) : Inside lo hi (seekoff b off dir mode).2 ∧
      (Sought b mode (dir.from_ b.eback b.gptr b.egptr + off) q (seekoff b off dir mode) ↔
        (b.eback ≤ p ∧ p ≤ b.egptr → toInt32 off = off)) := by
  rw [sought_iff, seekoff, if_pos hin, if_neg hout]
  rcases seekoffIn_spec h hp hf with ⟨h1, h2, b1, he, hi, hg, -⟩ | ⟨hr, he⟩
  · rw [he]
    refine ⟨hi, ?_⟩
    simp only [hin, hout, Bool.false_eq_true, true_implies, false_implies, implies_true, true_and]
    omega
  · rw [he]
    refine ⟨h, ?_⟩
    simp only [hin, hout, Bool.false_eq_true, true_implies, false_implies, implies_true, and_self,
      and_true]
    omega

/-- The put position alone is moved as asked for if the conversion does not change the offset. -/
theorem seekoff_out_iff (h : Inside lo hi b)
    (hq : dir.from_ b.pbase b.pptr b.epptr + toInt32 off = q)
    (hf : b.pbase ≤ q ∧ q ≤ b.epptr → Fits (q - b.pptr)) (hin : ¬mode.has .in_)
    (hout : mode.has .out) : Inside lo hi (seekoff b off dir mode).2 ∧
      (Sought b mode p (dir.from_ b.pbase b.pptr b.epptr + off) (seekoff b off dir mode) ↔
        (b.pbase ≤ q ∧ q ≤ b.epptr → toInt32 off = off)) := by
  rw [sought_iff, seekoff, if_neg hin, if_pos hout]
  rcases seekoffOut_spec h hq hf with ⟨h1, h2, b1, he, hi, hg, -⟩ | ⟨hr, he⟩
  · rw [he]
    refine ⟨hi, ?_⟩
    simp only [hin, hout, Bool.false_eq_true, true_implies, false_implies, implies_true, true_and]
    omega
  · rw [he]
    refine ⟨h, ?_⟩
    simp only [hin, hout, Bool.false_eq_true, true_implies, false_implies, implies_true, true_and,
      and_self, and_true]
    omega

/-- Both positions are moved as asked for, or left, if moreover both sides agree. -/
theorem seekoff_both_iff (h : Inside lo hi b)
    (hp : dir.from_ b.eback b.gptr b.egptr + toInt32 off = p)
    (hq : dir.from_ b.pbase b.pptr b.epptr + toInt32 off = q)
    (hfi : b.eback ≤ p ∧ p ≤ b.egptr → Fits (p - b.gptr))
    (hfo : b.pbase ≤ q ∧ q ≤ b.epptr → Fits (q - b.pptr)) (hin : mode.has .in_)
    (hout : mode.has .out) : Inside lo hi (seekoff b off dir mode).2 ∧
      (Sought b mode (dir.from_ b.eback b.gptr b.egptr + off)
          (dir.from_ b.pbase b.pptr b.epptr + off) (seekoff b off dir mode) ↔
        (b.eback ≤ p ∧ p ≤ b.egptr → toInt32 off = off) ∧
        (b.pbase ≤ q ∧ q ≤ b.epptr → toInt32 off = off) ∧ Together b dir off) := by
  have hbeg := h.eback_eq.trans h.pbase_eq.symm
  have hfin := h.egptr_eq.trans h.epptr_eq.symm
  have hgptr := h.gptr_le
  have heback := h.eback_le
  have hpptr := h.pptr_le
  have hpbase := h.pbase_le
  have hzero : off = 0 → toInt32 off = 0 := by
    rintro rfl
    rfl
  rw [Together, hp, hq, sought_iff, seekoff, if_pos hin, if_pos hout]
  rcases seekoffIn_spec h hp hfi with ⟨h1, h2, b1, he, hi, hg, hput⟩ | ⟨hr, he⟩
  · rcases put_congr hput with ⟨c1, c2, c3⟩
    rw [he]
    rcases seekoffOut_spec hi (by rw [c1, c2, c3, hq]) (by rw [c1, c2, c3]; exact hfo) with
      ⟨h3, h4, b2, he', hi', hg', hget⟩ | ⟨hr', he'⟩
    · have hx := (get_congr hget).2.1
      rw [he']
      refine ⟨hi', ?_⟩
      simp only [hin, hout, true_implies]
      omega
    · -- The get position has moved before the put side fails, for which the result is -1.
      rw [he']
      refine ⟨hi, ?_⟩
      simp only [hin, hout, true_implies]
      cases dir <;> simp only [SeekDir.from_] at * <;> omega
  · rw [he]
    rcases seekoffOut_spec h hq hfo with ⟨h3, h4, b2, he', hi', hg', hget⟩ | ⟨hr', he'⟩
    · -- The result is that of the put side, whatever became of the get side.
      have hx := (get_congr hget).2.1
      rw [he']
      refine ⟨hi', ?_⟩
      simp only [hin, hout, true_implies]
      cases dir <;> simp only [SeekDir.from_] at * <;> omega
    · rw [he']
      refine ⟨h, ?_⟩
      simp only [hin, hout, true_implies, and_self, implies_true, and_true]
      omega

/-- Where the ways are not too long, a `seekoff` ends inside of the areas, and is good if the
conversion does not change an offset that is used, and both sides agree. -/
theorem seekoff_iff (h : Inside lo hi b) (hp : dir.from_ b.eback b.gptr b.egptr + toInt32 off = p)
    (hq : dir.from_ b.pbase b.pptr b.epptr + toInt32 off = q)
    (hfi : mode.has .in_ → b.eback ≤ p ∧ p ≤ b.egptr → Fits (p - b.gptr))
    (hfo : mode.has .out → b.pbase ≤ q ∧ q ≤ b.epptr → Fits (q - b.pptr)) :
    Inside lo hi (seekoff b off dir mode).2 ∧
      (Sought b mode (dir.from_ b.eback b.gptr b.egptr + off)
          (dir.from_ b.pbase b.pptr b.epptr + off) (seekoff b off dir mode) ↔
        (mode.has .in_ → b.eback ≤ p ∧ p ≤ b.egptr → toInt32 off = off) ∧
        (mode.has .out → b.pbase ≤ q ∧ q ≤ b.epptr → toInt32 off = off) ∧
        (mode.has .in_ → mode.has .out → Together b dir off)) := by
  by_cases hin : mode.has .in_
  · by_cases hout : mode.has .out
    · simpa only [hin, hout, true_implies] using
        seekoff_both_iff h hp hq (hfi hin) (hfo hout) hin hout
    · simpa only [hin, hout, Bool.false_eq_true, true_implies, false_implies, implies_true,
        and_true] using seekoff_in_iff h hp (hfi hin) hin hout
  · by_cases hout : mode.has .out
    · simpa only [hin, hout, Bool.false_eq_true, true_implies, false_implies, implies_true,
        true_and, and_true] using seekoff_out_iff h hq (hfo hout) hin hout
    · rw [sought_iff, seekoff, if_neg hin, if_neg hout]
      refine ⟨h, ?_⟩
      simp [hin, hout]

end Seekoff

section Seekpos

variable {lo hi : Nat} {b : BinStreamBuf Unit} {pos : Int} {mode : OpenMode}

/-- A place that no `unsigned` is refused. -/
theorem seekpos_of_not (h : ¬(0 ≤ pos ∧ pos ≤ posMax)) : seekpos b pos mode = (-1, b) := if_neg h

theorem seekpos_fst (h : 0 ≤ pos ∧ pos ≤ posMax) (hm : mode.has .in_ ∨ mode.has .out) :
    (seekpos b pos mode).1 = pos := by
  rw [seekpos, if_pos h]
  by_cases hout : mode.has .out
  · rw [if_pos hout]
  · rw [if_neg hout, if_pos (hm.resolve_right hout)]

/-- What a `seekpos` does with the get area, if it is about it. -/
theorem seekpos_get (h : Inside lo hi b) (hin : mode.has .in_ →
      b.eback + pos ≤ b.egptr ∧ Fits (pos + ((b.eback : Int) - b.gptr))) (h0 : 0 ≤ pos) :
    ∃ b', (if mode.has .in_ then (pos, b.gbump (toInt32 (pos + ((b.eback : Int) - b.gptr))))
        else (-1, b)) = (if mode.has .in_ then pos else -1, b') ∧ Inside lo hi b' ∧
      b'.put = b.put ∧ (mode.has .in_ → (b'.gptr : Int) = b.eback + pos) ∧
      (¬mode.has .in_ → b' = b) := by
  by_cases hm : mode.has .in_
  · have hf := hin hm
    rcases h.gbump (d := pos + ((b.eback : Int) - b.gptr)) (by omega) (by omega) with ⟨hk, hg⟩
    refine ⟨b.gbump (pos + ((b.eback : Int) - b.gptr)), ?_, hk, rfl, fun _ ↦ by omega,
      fun hn ↦ absurd hm hn⟩
    rw [if_pos hm, if_pos hm, toInt32_of_fits hf.2]
  · refine ⟨b, ?_, h, rfl, fun hn ↦ absurd hn hm, fun _ ↦ rfl⟩
    rw [if_neg hm, if_neg hm]

/-- A place inside of the areas is moved to. -/
theorem seekpos_good (h : Inside lo hi b) (hr : 0 ≤ pos ∧ pos ≤ posMax)
    (hi' : mode.has .in_ → b.eback + pos ≤ b.egptr ∧ Fits (pos + ((b.eback : Int) - b.gptr)))
    (ho : mode.has .out → b.pbase + pos ≤ b.epptr ∧ Fits (pos + ((b.pbase : Int) - b.pptr))) :
    Inside lo hi (seekpos b pos mode).2 ∧
      Sought b mode (b.eback + pos) (b.pbase + pos) (seekpos b pos mode) := by
  rcases seekpos_get h hi' hr.1 with ⟨b1, he, hk, hput, hg, hn⟩
  rcases put_congr hput with ⟨c1, c2, c3⟩
  rw [sought_iff, seekpos, if_pos hr, he]
  dsimp only
  rw [c1, c2]
  by_cases hout : mode.has .out
  · have hf := ho hout
    rcases hk.pbump (d := pos + ((b.pbase : Int) - b.pptr)) (by omega) (by omega) with ⟨hk', hp⟩
    have hx : (b1.pbump (pos + ((b.pbase : Int) - b.pptr))).gptr = b1.gptr := rfl
    rw [if_pos hout, toInt32_of_fits hf.2]
    refine ⟨hk', ?_, ?_, by dsimp only; omega⟩
    · intro _ hin
      have hf' := hi' hin
      have hg' := hg hin
      dsimp only
      omega
    · intro _ _
      dsimp only
      omega
  · rw [if_neg hout]
    refine ⟨hk, ?_, fun _ hm ↦ absurd hm hout, ?_⟩
    · intro _ hin
      have hf' := hi' hin
      have hg' := hg hin
      rw [if_pos hin]
      dsimp only
      omega
    · by_cases hin : mode.has .in_
      · rw [if_pos hin]
        intro hm
        dsimp only at hm
        omega
      · rw [hn hin]
        exact fun _ ↦ ⟨rfl, rfl⟩

/-- A place that a seek was good at is inside of the areas. -/
theorem seekpos_inside (hr : 0 ≤ pos ∧ pos ≤ posMax)
    (h : Sought b mode (b.eback + pos) (b.pbase + pos) (seekpos b pos mode)) :
    (mode.has .in_ → b.eback + pos ≤ b.egptr) ∧ (mode.has .out → b.pbase + pos ≤ b.epptr) := by
  constructor
  · intro hin
    exact (h.gets (by rw [seekpos_fst hr (Or.inl hin)]; exact hr.1) hin).2.2.1
  · intro hout
    exact (h.puts (by rw [seekpos_fst hr (Or.inr hout)]; exact hr.1) hout).2.2.1

end Seekpos

/-! ### Runs -/

section Runs

variable {lo hi : Nat} {b : BinStreamBuf Unit} {o : Op}

/-- A call that is made with care ends inside of the areas, and is good. -/
theorem good_of_careful (h : Inside lo hi b) (hc : Careful b o) :
    Inside lo hi (o.after b) ∧ Good b o := by
  have hplain : ∀ {b'}, Inside lo hi b' → Inside lo hi b' ∧ Bounded b' ∧ True :=
    fun hk ↦ ⟨hk, hk.toBounded, trivial⟩
  cases o with
  | sbumpc => exact hplain h.sbumpc
  | sgetc => exact hplain h.sgetc
  | sungetc => exact hplain h.sungetc
  | sputbackc x => exact hplain (h.sputbackc x)
  | xsgetn n => exact hplain (h.xsgetn hc)
  | galign n => exact hplain (BinStreamBuf.skip_keeps (fun _ ↦ Inside.sbumpc) _ h)
  | sputc x => exact hplain (h.sputc x)
  | xsputn bs => exact hplain (h.xsputn hc)
  | palign n => exact hplain (BinStreamBuf.putZeros_keeps (fun _ x hb ↦ hb.sputc x) _ h)
  | reset mode => exact hplain (h.reset hc.1 hc.2)
  | seekoff off dir mode =>
    rcases hc with ⟨hin, hout, hboth⟩
    rcases seekoff_iff h rfl rfl (fun hm hr ↦ (hin hm hr).2) (fun hm hr ↦ (hout hm hr).2) with
      ⟨hk, hs⟩
    exact ⟨hk, hk.toBounded,
      hs.mpr ⟨fun hm hr ↦ (hin hm hr).1, fun hm hr ↦ (hout hm hr).1, hboth⟩⟩
  | seekpos pos mode =>
    by_cases hr : 0 ≤ pos ∧ pos ≤ posMax
    · rcases hc hr.1 hr.2 with ⟨hin, hout⟩
      rcases seekpos_good h hr hin hout with ⟨hk, hs⟩
      exact ⟨hk, hk.toBounded, hs⟩
    · have he : seekpos b pos mode = (-1, b) := seekpos_of_not hr
      have hn : ¬(0 : Int) ≤ -1 := by decide
      refine ⟨?_, ?_, ?_⟩
      · rw [Op.after, he]
        exact h
      · rw [Op.after, he]
        exact h.toBounded
      · dsimp only
        rw [he]
        exact ⟨fun h0 ↦ absurd h0 hn, fun h0 ↦ absurd h0 hn, fun _ ↦ ⟨rfl, rfl⟩⟩

/-- Over a memory that an `int` can measure, a call that is good was made with care. -/
theorem careful_of_good (h : Inside lo hi b) (hs : hi - lo < 2 ^ 31) (hg : Good b o) :
    Careful b o := by
  have h1 := h.eback_le
  have h2 := h.gptr_le
  have h3 := h.pbase_le
  have h4 := h.pptr_le
  have h5 := h.eback_eq
  have h6 := h.egptr_eq
  have h7 := h.pbase_eq
  have h8 := h.epptr_eq
  cases o with
  | xsgetn n =>
    show min n (b.egptr - b.gptr) < 2 ^ 31
    omega
  | xsputn bs =>
    show min bs.length (b.epptr - b.pptr) < 2 ^ 31
    omega
  | reset mode =>
    constructor
    · intro _
      rw [Fits]
      omega
    · intro _
      rw [Fits]
      omega
  | seekoff off dir mode =>
    have hfi : ∀ {p : Int}, b.eback ≤ p ∧ p ≤ b.egptr → Fits (p - b.gptr) := by
      intro p hp
      rw [Fits]
      omega
    have hfo : ∀ {p : Int}, b.pbase ≤ p ∧ p ≤ b.epptr → Fits (p - b.pptr) := by
      intro p hp
      rw [Fits]
      omega
    rcases (seekoff_iff h rfl rfl (fun _ ↦ hfi) (fun _ ↦ hfo)).2.mp hg.2 with ⟨hin, hout, hboth⟩
    exact ⟨fun hm hr ↦ ⟨hin hm hr, hfi hr⟩, fun hm hr ↦ ⟨hout hm hr, hfo hr⟩, hboth⟩
  | seekpos pos mode =>
    intro h0 hmax
    rcases seekpos_inside ⟨h0, hmax⟩ hg.2 with ⟨hin, hout⟩
    constructor
    · intro hm
      have hx := hin hm
      rw [Fits]
      omega
    · intro hm
      have hx := hout hm
      rw [Fits]
      omega
  | _ => trivial

/-- Runs of calls made with care are good, and over a memory that an `int` can measure no others
are. -/
theorem calls_good_iff (p : List UInt8) (n : Nat) (os : List Op) :
    ((calls p n).Along Careful (setbuf empty p n) os →
      (calls p n).Along Good (setbuf empty p n) os) ∧
    (n < 2 ^ 31 → ((calls p n).Along Good (setbuf empty p n) os ↔
      (calls p n).Along Careful (setbuf empty p n) os)) := by
  have h0 := setbuf_inside p n
  have hstep : ∀ b o b', Inside 0 n b → Careful b o → (calls p n).step b o = some b' →
      Inside 0 n b' := by
    intro b o b' hb hc hs
    rw [← Option.some.inj hs]
    exact (good_of_careful hb hc).1
  have hfwd : (calls p n).Along Careful (setbuf empty p n) os →
      (calls p n).Along Good (setbuf empty p n) os :=
    Machine.along_imp (fun _ _ hb hc ↦ (good_of_careful hb hc).2) hstep h0
  refine ⟨hfwd, fun hn ↦ ⟨?_, hfwd⟩⟩
  apply Machine.along_imp (I := Inside 0 n) _ _ h0
  · exact fun b o hb hg ↦ careful_of_good hb hn hg
  · exact fun b o b' hb hg ↦ hstep b o b' hb (careful_of_good hb hn hg)

/-- A `seekpos` behind the end of four bytes is not refused, and the position is then outside. -/
theorem seekpos_not_good :
    ¬(calls [1, 2, 3, 4] 4).Along Good (setbuf empty [1, 2, 3, 4] 4) [.seekpos 5 .in_] := by
  intro h
  have hle := h.1.1.gptr_le
  revert hle
  decide

end Runs

end MemBinStreamBuf
end CtrlrFx.Io
