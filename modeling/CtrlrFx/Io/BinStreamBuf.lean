import CtrlrFx.Base.Block
import CtrlrFx.Base.Layout
import CtrlrFx.Base.Words

/-!
# Binary stream buffers

`CtrlrFx/BinStreamBuf.h` and `src/io/BinStream/BinStreamBuf.cpp`: a get area and a put area in a
block of memory, and three virtual functions with which a subclass refills the one and empties
the other. What a subclass adds to it lies in `dev`.
-/

namespace CtrlrFx.Io
open Base

/-- Three pointers into the memory of a stream buffer: to the begin of an area, to the next
position in it and to one past its end. -/
structure Area where
  beg : Nat
  next : Nat
  fin : Nat
  deriving DecidableEq, Repr

/-- Members of the stream buffer; `CtrlrFx/BinStreamBuf.h:38–43`. An area whose pointers are null
is missing. `mem` is the memory that the areas lie in, and `dev` what a subclass adds. -/
structure BinStreamBuf (δ : Type) where
  mem : List UInt8
  get : Option Area
  put : Option Area
  dev : δ
  deriving DecidableEq, Repr

/-- The virtual functions that subclasses override; `CtrlrFx/BinStreamBuf.h:59,73,77`. -/
structure Overrides (δ : Type) where
  underflow : BinStreamBuf δ → Int × BinStreamBuf δ
  overflow : BinStreamBuf δ → Int → Int × BinStreamBuf δ
  sync : BinStreamBuf δ → Int × BinStreamBuf δ

/-- The functions of the base class; `CtrlrFx/BinStreamBuf.h:137–140,210–213,221–224`. -/
def Overrides.base (δ : Type) : Overrides δ where
  underflow b := (-1, b)
  overflow b _ := (-1, b)
  sync b := (0, b)

namespace BinStreamBuf

variable {δ : Type} (v : Overrides δ)

/-! ### Get area -/

def eback (b : BinStreamBuf δ) : Nat := (b.get.map Area.beg).getD 0

def gptr (b : BinStreamBuf δ) : Nat := (b.get.map Area.next).getD 0

def egptr (b : BinStreamBuf δ) : Nat := (b.get.map Area.fin).getD 0

/-- `CtrlrFx/BinStreamBuf.h:120–123`. -/
def gbump (b : BinStreamBuf δ) (n : Int) : BinStreamBuf δ :=
  { b with get := b.get.map fun a ↦ { a with next := (a.next + n).toNat } }

/-- `CtrlrFx/BinStreamBuf.h:125–130`, with pointers that are not null. -/
def setg (b : BinStreamBuf δ) (beg next fin : Nat) : BinStreamBuf δ :=
  { b with get := some { beg, next, fin } }

/-- `gnext_ && gnext_ < gend_`. -/
def hasGet (b : BinStreamBuf δ) : Bool := b.get.isSome && decide (b.gptr < b.egptr)

/-- The byte at a place; outside of the memory it has no value, for which there is 0 here. -/
def byteAt (b : BinStreamBuf δ) (i : Nat) : UInt8 := b.mem.getD i 0

/-- The bytes at `n` places from `i` on. -/
def bytesAt (b : BinStreamBuf δ) : Nat → Nat → List UInt8
  | _, 0 => []
  | i, n + 1 => b.byteAt i :: b.bytesAt (i + 1) n

/-- `CtrlrFx/BinStreamBuf.h:142–148`. -/
def uflow (b : BinStreamBuf δ) : Int × BinStreamBuf δ :=
  let r := v.underflow b
  if r.1 ≥ 0 ∧ r.2.get.isSome then (r.1, r.2.gbump 1) else r

/-- `CtrlrFx/BinStreamBuf.h:165–168`. -/
def sbumpc (b : BinStreamBuf δ) : Int × BinStreamBuf δ :=
  if b.hasGet then ((b.byteAt b.gptr).toNat, b.gbump 1) else b.uflow v

/-- `CtrlrFx/BinStreamBuf.h:170–173`. -/
def sgetc (b : BinStreamBuf δ) : Int × BinStreamBuf δ :=
  if b.hasGet then ((b.byteAt b.gptr).toNat, b) else v.underflow b

/-- `gnext_ && gnext_ > gbegin_`. -/
def hasBack (b : BinStreamBuf δ) : Bool := b.get.isSome && decide (b.eback < b.gptr)

/-- No class overrides this; `CtrlrFx/BinStreamBuf.h:150–153`. -/
def pbackfail (b : BinStreamBuf δ) : Int × BinStreamBuf δ := (-1, b)

/-- `CtrlrFx/BinStreamBuf.h:180–183`. -/
def sputbackc (b : BinStreamBuf δ) (by_ : UInt8) : Int × BinStreamBuf δ :=
  if b.hasBack ∧ b.byteAt (b.gptr - 1) = by_ then
    (((b.gbump (-1)).byteAt (b.gbump (-1)).gptr).toNat, b.gbump (-1))
  else b.pbackfail

/-- `CtrlrFx/BinStreamBuf.h:185–188`. -/
def sungetc (b : BinStreamBuf δ) : Int × BinStreamBuf δ :=
  if b.hasBack then (((b.gbump (-1)).byteAt (b.gbump (-1)).gptr).toNat, b.gbump (-1))
  else b.pbackfail

/-- Bumps `n` bytes. -/
def skip : Nat → BinStreamBuf δ → BinStreamBuf δ
  | 0, b => b
  | n + 1, b => skip n (b.sbumpc v).2

/-- Bytes from the next position of an area up to a multiple of `n` bytes behind its begin. -/
def padding (beg next n : Nat) : Nat :=
  let rem := ((next : Int) - beg).tmod n
  if rem ≠ 0 then (n - rem).toNat else 0

/-- `src/io/BinStream/BinStreamBuf.cpp:43–52`. -/
def galign (b : BinStreamBuf δ) (n : Nat) : BinStreamBuf δ :=
  skip v (padding b.eback b.gptr n) b

/-- The loop of `xsgetn`, of which every round but the last gets at least one byte;
`src/io/BinStream/BinStreamBuf.cpp:62–76`. -/
def xsgetnLoop : Nat → Nat → BinStreamBuf δ → List UInt8 × BinStreamBuf δ
  | 0, _, b => ([], b)
  | k + 1, cnt, b =>
    if cnt = 0 then ([], b)
    else if b.hasGet then
      let size := min cnt (b.egptr - b.gptr)
      let r := xsgetnLoop k (cnt - size) (b.gbump (toInt32 size))
      (b.bytesAt b.gptr size ++ r.1, r.2)
    else
      let c := b.uflow v
      if c.1 < 0 then ([], c.2)
      else
        let r := xsgetnLoop k (cnt - 1) c.2
        (UInt8.ofNat c.1.toNat :: r.1, r.2)

/-- The bytes that are got, up to `n`; `src/io/BinStream/BinStreamBuf.cpp:56–78`. -/
def xsgetn (b : BinStreamBuf δ) (n : Nat) : List UInt8 × BinStreamBuf δ := xsgetnLoop v n n b

/-! ### Put area -/

def pbase (b : BinStreamBuf δ) : Nat := (b.put.map Area.beg).getD 0

def pptr (b : BinStreamBuf δ) : Nat := (b.put.map Area.next).getD 0

def epptr (b : BinStreamBuf δ) : Nat := (b.put.map Area.fin).getD 0

/-- `CtrlrFx/BinStreamBuf.h:190–193`. -/
def pbump (b : BinStreamBuf δ) (n : Int) : BinStreamBuf δ :=
  { b with put := b.put.map fun a ↦ { a with next := (a.next + n).toNat } }

/-- `CtrlrFx/BinStreamBuf.h:195–199`, with pointers that are not null. -/
def setp (b : BinStreamBuf δ) (beg fin : Nat) : BinStreamBuf δ :=
  { b with put := some { beg, next := beg, fin } }

/-- `pnext_ && pnext_ < pend_`. -/
def hasPut (b : BinStreamBuf δ) : Bool := b.put.isSome && decide (b.pptr < b.epptr)

/-- Copies bytes to the next position of the put area, and moves that behind them. -/
def copyIn (b : BinStreamBuf δ) (bs : List UInt8) : BinStreamBuf δ :=
  ({ b with mem := Block.write b.mem b.pptr bs }).pbump (toInt32 bs.length)

/-- `CtrlrFx/BinStreamBuf.h:237–240`. -/
def sputc (b : BinStreamBuf δ) (by_ : UInt8) : Int × BinStreamBuf δ :=
  if b.hasPut then (by_.toNat, b.copyIn [by_]) else v.overflow b by_.toNat

/-- Puts `n` zero bytes, whatever comes of it. -/
def putZeros : Nat → BinStreamBuf δ → BinStreamBuf δ
  | 0, b => b
  | n + 1, b => putZeros n (b.sputc v 0).2

/-- `src/io/BinStream/BinStreamBuf.cpp:84–93`. -/
def palign (b : BinStreamBuf δ) (n : Nat) : BinStreamBuf δ :=
  putZeros v (padding b.pbase b.pptr n) b

/-- The loop of `xsputn`, of which every round but the last puts at least one byte, with the
number of bytes put; `src/io/BinStream/BinStreamBuf.cpp:102–116`. -/
def xsputnLoop : Nat → List UInt8 → BinStreamBuf δ → Nat × BinStreamBuf δ
  | 0, _, b => (0, b)
  | _, [], b => (0, b)
  | k + 1, x :: xs, b =>
    if b.hasPut then
      let size := min (x :: xs).length (b.epptr - b.pptr)
      let r := xsputnLoop k ((x :: xs).drop size) (b.copyIn ((x :: xs).take size))
      (size + r.1, r.2)
    else
      let c := v.overflow b x.toNat
      if c.1 < 0 then (0, c.2)
      else
        let r := xsputnLoop k xs c.2
        (r.1 + 1, r.2)

/-- `src/io/BinStream/BinStreamBuf.cpp:97–118`. -/
def xsputn (b : BinStreamBuf δ) (bs : List UInt8) : Nat × BinStreamBuf δ :=
  xsputnLoop v bs.length bs b

/-! ### Single steps -/

variable {v}

theorem sbumpc_of_hasGet {b : BinStreamBuf δ} (h : b.hasGet) :
    b.sbumpc v = (((b.byteAt b.gptr).toNat : Int), b.gbump 1) := if_pos h

theorem sbumpc_of_not {b : BinStreamBuf δ} (h : ¬b.hasGet) : b.sbumpc v = b.uflow v := if_neg h

theorem sputc_of_hasPut {b : BinStreamBuf δ} (h : b.hasPut) (x : UInt8) :
    b.sputc v x = ((x.toNat : Int), b.copyIn [x]) := if_pos h

theorem sputc_of_not {b : BinStreamBuf δ} (h : ¬b.hasPut) (x : UInt8) :
    b.sputc v x = v.overflow b x.toNat := if_neg h

theorem hasGet_iff {b : BinStreamBuf δ} : b.hasGet ↔ b.gptr < b.egptr := by
  rcases b with ⟨m, _ | a, p, d⟩
  · simp [hasGet, gptr, egptr]
  · simp [hasGet]

theorem hasBack_iff {b : BinStreamBuf δ} : b.hasBack ↔ b.eback < b.gptr := by
  rcases b with ⟨m, _ | a, p, d⟩
  · simp [hasBack, gptr, eback]
  · simp [hasBack]

theorem hasPut_iff {b : BinStreamBuf δ} : b.hasPut ↔ b.pptr < b.epptr := by
  rcases b with ⟨m, g, _ | a, d⟩
  · simp [hasPut, pptr, epptr]
  · simp [hasPut]

@[simp] theorem eback_gbump (b : BinStreamBuf δ) (n : Int) : (b.gbump n).eback = b.eback := by
  rcases b with ⟨m, _ | a, p, d⟩ <;> rfl

@[simp] theorem egptr_gbump (b : BinStreamBuf δ) (n : Int) : (b.gbump n).egptr = b.egptr := by
  rcases b with ⟨m, _ | a, p, d⟩ <;> rfl

theorem gptr_gbump_of_isSome {b : BinStreamBuf δ} (h : b.get.isSome) (n : Int) :
    (b.gbump n).gptr = (b.gptr + n).toNat := by
  rcases b with ⟨m, _ | a, p, d⟩
  · simp at h
  · rfl

theorem gptr_gbump {b : BinStreamBuf δ} (h : b.hasGet) (n : Int) :
    (b.gbump n).gptr = (b.gptr + n).toNat := by
  apply gptr_gbump_of_isSome
  rw [hasGet, Bool.and_eq_true] at h
  exact h.1

theorem gptr_gbump_back {b : BinStreamBuf δ} (h : b.hasBack) :
    (b.gbump (-1)).gptr = b.gptr - 1 := by
  rcases b with ⟨m, _ | a, p, d⟩
  · simp [hasBack] at h
  · exact Int.toNat_sub a.next 1

/-- The byte in front of the get position. -/
theorem sungetc_of_hasBack {b : BinStreamBuf δ} (h : b.hasBack) :
    b.sungetc = (((b.byteAt (b.gptr - 1)).toNat : Int), b.gbump (-1)) := by
  rw [sungetc, if_pos h, gptr_gbump_back h]
  rfl

theorem sungetc_of_not {b : BinStreamBuf δ} (h : ¬b.hasBack) : b.sungetc = (-1, b) := if_neg h

/-- Putting a byte back is taking back a get, or fails. -/
theorem sputbackc_cases (b : BinStreamBuf δ) (x : UInt8) :
    b.hasBack ∧ b.sputbackc x = b.sungetc ∨ b.sputbackc x = (-1, b) := by
  by_cases h : b.hasBack ∧ b.byteAt (b.gptr - 1) = x
  · left
    rw [sputbackc, if_pos h, sungetc, if_pos h.1]
    exact ⟨h.1, rfl⟩
  · right
    rw [sputbackc, if_neg h]
    rfl

@[simp] theorem pbase_pbump (b : BinStreamBuf δ) (n : Int) : (b.pbump n).pbase = b.pbase := by
  rcases b with ⟨m, g, _ | a, d⟩ <;> rfl

@[simp] theorem epptr_pbump (b : BinStreamBuf δ) (n : Int) : (b.pbump n).epptr = b.epptr := by
  rcases b with ⟨m, g, _ | a, d⟩ <;> rfl

theorem pptr_pbump {b : BinStreamBuf δ} (h : b.put.isSome) (n : Int) :
    (b.pbump n).pptr = (b.pptr + n).toNat := by
  rcases b with ⟨m, g, _ | a, d⟩
  · simp at h
  · rfl

@[simp] theorem pbase_copyIn (b : BinStreamBuf δ) (bs : List UInt8) :
    (b.copyIn bs).pbase = b.pbase := pbase_pbump _ _

@[simp] theorem epptr_copyIn (b : BinStreamBuf δ) (bs : List UInt8) :
    (b.copyIn bs).epptr = b.epptr := epptr_pbump _ _

theorem isSome_of_hasPut {b : BinStreamBuf δ} (h : b.hasPut) : b.put.isSome := by
  rcases b with ⟨m, g, _ | a, d⟩
  · simp [hasPut] at h
  · rfl

theorem pptr_copyIn {b : BinStreamBuf δ} (h : b.put.isSome) {bs : List UInt8}
    (hl : bs.length < 2 ^ 31) : (b.copyIn bs).pptr = b.pptr + bs.length := by
  have hp := @pptr_pbump δ { b with mem := Block.write b.mem b.pptr bs } h bs.length
  rw [copyIn, toInt32_of_lt _ (by omega) (by omega), hp]
  rfl

theorem mem_copyIn (b : BinStreamBuf δ) (bs : List UInt8) :
    (b.copyIn bs).mem = Block.write b.mem b.pptr bs := rfl

theorem put_copyIn_one {b : BinStreamBuf δ} {a : Area} (h : b.put = some a) (x : UInt8) :
    (b.copyIn [x]).put = some { a with next := a.next + 1 } := by
  rw [copyIn, List.length_singleton, toInt32_one, pbump]
  dsimp only
  rw [h]
  rfl

@[simp] theorem gbump_zero (b : BinStreamBuf δ) : b.gbump (0 : Nat) = b := by
  rcases b with ⟨m, _ | a, p, d⟩ <;> simp [gbump]

/-- A block is got as its first byte and the block behind it. -/
theorem gbump_succ (b : BinStreamBuf δ) (n : Nat) :
    b.gbump (n + 1 : Nat) = (b.gbump 1).gbump n := by
  rcases b with ⟨m, _ | a, p, d⟩
  · rfl
  · simp only [gbump, Option.map_some, BinStreamBuf.mk.injEq, Option.some.injEq, Area.mk.injEq,
      true_and, and_true]
    omega

/-- A block is put as its first byte and the block behind it. -/
theorem copyIn_cons {b : BinStreamBuf δ} (h : b.hasPut) (x : UInt8) {xs : List UInt8}
    (hn : xs.length + 1 < 2 ^ 31) : b.copyIn (x :: xs) = (b.copyIn [x]).copyIn xs := by
  have hp := @pptr_copyIn δ b (isSome_of_hasPut h) [x] (by rw [List.length_singleton]; omega)
  rcases b with ⟨m, g, _ | a, d⟩
  · simp [hasPut] at h
  · have h1 : toInt32 (([x] : List UInt8).length : Nat) = 1 := toInt32_one
    have hs : toInt32 ((x :: xs).length : Nat) = (xs.length + 1 : Nat) := by
      rw [List.length_cons, toInt32_of_lt _ (by omega) (by omega)]
    have hx : toInt32 (xs.length : Nat) = xs.length := toInt32_of_lt _ (by omega) (by omega)
    rw [copyIn.eq_1 _ xs, hp]
    simp only [copyIn, pbump, pptr, h1, hs, hx, Option.map_some, Option.getD_some,
      BinStreamBuf.mk.injEq, Option.some.injEq, Area.mk.injEq, true_and, and_true]
    constructor
    · rfl
    · omega

end BinStreamBuf
end CtrlrFx.Io
