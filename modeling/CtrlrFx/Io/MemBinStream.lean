import CtrlrFx.Io.BinStream

/-!
# Memory streams

`CtrlrFx/MemBinStream.h`: a stream over a block of memory, which is get area and put area at
once.
-/

namespace CtrlrFx.Io
open Base

namespace MemBinStreamBuf

/-- `MemBinStreamBuf::setbuf`; `CtrlrFx/MemBinStream.h:52–57`. -/
def setbuf (b : BinStreamBuf Unit) (p : List UInt8) (n : Nat) : BinStreamBuf Unit :=
  { ({ b with mem := p } : BinStreamBuf Unit).setg 0 0 n with
    put := some { beg := 0, next := 0, fin := n } }

/-- Get, put and flush of a memory buffer are those of the base class. -/
def virtuals : Overrides Unit := .base Unit

/-- A buffer without areas; `CtrlrFx/BinStreamBuf.h:117–118`. -/
def empty : BinStreamBuf Unit := { mem := [], get := none, put := none, dev := () }

end MemBinStreamBuf

/-- `CtrlrFx/MemBinStream.h:85–88`. -/
def InMemBinStream (p : List UInt8) (n : UInt32) : BinStream Unit :=
  .init (MemBinStreamBuf.setbuf MemBinStreamBuf.empty p n.toNat)

/-- `CtrlrFx/MemBinStream.h:114–117`. -/
def OutMemBinStream (p : List UInt8) (n : Nat) : BinStream Unit :=
  .init (MemBinStreamBuf.setbuf MemBinStreamBuf.empty p n)

namespace MemBinStreamBuf

/-- The bytes put so far are the first ones of the memory. -/
structure Put (n : Nat) (b : BinStreamBuf Unit) (acc : List UInt8) : Prop where
  put_eq : b.put = some { beg := 0, next := acc.length, fin := n }
  length_le : acc.length ≤ n
  room : n ≤ b.mem.length
  mem : b.mem.take acc.length = acc

/-- The bytes got so far are the first ones of the memory. -/
structure Get (mem : List UInt8) (n : Nat) (b : BinStreamBuf Unit) (p : Nat) : Prop where
  get_eq : b.get = some { beg := 0, next := p, fin := n }
  mem_eq : b.mem = mem

theorem Put.pptr_eq {n : Nat} {b : BinStreamBuf Unit} {acc : List UInt8} (h : Put n b acc) :
    b.pbase = 0 ∧ b.pptr = acc.length ∧ b.epptr = n := by
  simp only [BinStreamBuf.pbase, BinStreamBuf.pptr, BinStreamBuf.epptr, h.put_eq, Option.map_some,
    Option.getD_some, and_self]

theorem Put.hasPut_iff {n : Nat} {b : BinStreamBuf Unit} {acc : List UInt8} (h : Put n b acc) :
    b.hasPut ↔ acc.length < n := by
  rw [BinStreamBuf.hasPut_iff, h.pptr_eq.2.1, h.pptr_eq.2.2]

theorem Get.gptr_eq {mem : List UInt8} {n : Nat} {b : BinStreamBuf Unit} {p : Nat}
    (h : Get mem n b p) : b.eback = 0 ∧ b.gptr = p ∧ b.egptr = n := by
  simp only [BinStreamBuf.eback, BinStreamBuf.gptr, BinStreamBuf.egptr, h.get_eq, Option.map_some,
    Option.getD_some, and_self]

theorem overflow_virtuals (b : BinStreamBuf Unit) (c : Int) : virtuals.overflow b c = (-1, b) :=
  rfl

/-- A byte is stored where there is room, and refused for good where there is none. -/
theorem put_law (n : Nat) : BinStreamBuf.FirmPutLaw virtuals (Put n) where
  kept := by
    intro b acc x h hc
    by_cases hp : b.hasPut
    · have hlt := h.hasPut_iff.mp hp
      have hroom := h.room
      rw [BinStreamBuf.sputc_of_hasPut hp]
      constructor
      · rw [BinStreamBuf.put_copyIn_one h.put_eq, List.length_append, List.length_singleton]
      · rw [List.length_append, List.length_singleton]
        omega
      · rw [BinStreamBuf.mem_copyIn, Block.length_write]
        exact h.room
      · have hw := Block.take_write_end b.mem b.pptr [x]
          (by rw [h.pptr_eq.2.1, List.length_singleton]; omega)
        rw [h.pptr_eq.2.1, h.mem] at hw
        rw [BinStreamBuf.mem_copyIn, h.pptr_eq.2.1, List.length_append]
        exact hw
    · rw [BinStreamBuf.sputc_of_not hp, overflow_virtuals] at hc
      exact absurd hc (show ¬(0 : Int) ≤ -1 by decide)
  refused := by
    intro b acc x h hc
    by_cases hp : b.hasPut
    · rw [BinStreamBuf.sputc_of_hasPut hp] at hc
      dsimp only at hc
      omega
    · rw [BinStreamBuf.sputc_of_not hp]
      exact h
  firm := by
    intro b acc x h hc y
    by_cases hp : b.hasPut
    · rw [BinStreamBuf.sputc_of_hasPut hp] at hc
      dsimp only at hc
      omega
    · rw [BinStreamBuf.sputc_of_not hp, overflow_virtuals, BinStreamBuf.sputc_of_not hp,
        overflow_virtuals]
      show (-1 : Int) < 0
      decide

/-- The bytes of the memory are got in order. -/
theorem get_law {mem : List UInt8} {n : Nat} (hn : n ≤ mem.length) :
    BinStreamBuf.GetLaw virtuals (mem.take n) (Get mem n) where
  got := by
    intro b p h hp
    rw [List.length_take, Nat.min_eq_left hn] at hp
    have hg : b.hasGet := by
      rw [BinStreamBuf.hasGet_iff, h.gptr_eq.2.1, h.gptr_eq.2.2]
      exact hp
    rw [BinStreamBuf.sbumpc_of_hasGet hg]
    constructor
    · rw [BinStreamBuf.byteAt, h.mem_eq, h.gptr_eq.2.1, List.getElem_take,
        List.getD_eq_getElem?_getD, List.getElem?_eq_getElem (by omega), Option.getD_some]
    · constructor
      · simp only [BinStreamBuf.gbump, h.get_eq, Option.map_some, Option.some.injEq,
          Area.mk.injEq, true_and, and_true]
        omega
      · exact h.mem_eq

theorem put_origin {n : Nat} (b : BinStreamBuf Unit) (acc : List UInt8) (h : Put n b acc) :
    b.pbase ≤ b.pptr ∧ acc.length = 0 + (b.pptr - b.pbase) := by
  rw [h.pptr_eq.1, h.pptr_eq.2.1]
  omega

theorem get_origin {mem : List UInt8} {n : Nat} (b : BinStreamBuf Unit) (p : Nat)
    (h : Get mem n b p) : b.eback ≤ b.gptr ∧ p = 0 + (b.gptr - b.eback) := by
  rw [h.gptr_eq.1, h.gptr_eq.2.1]
  omega

/-- In memory every area begins at the same place. -/
theorem aligned (e : Endian) (s : BinStream Unit) (olds : List Val) :
    Val.Aligned virtuals e (fun _ ↦ 0) s olds := by
  induction olds generalizing s with
  | nil => trivial
  | cons old olds ih => exact ⟨Nat.dvd_zero _, ih _⟩

/-- Values that were inserted without failure lie in the memory as their layout says. -/
theorem insertAll_law {n : Nat} {e : Endian} {s : BinStream Unit} {acc : List UInt8}
    (h : Put n s.buf acc) {xs : List Val}
    (hg : ∀ st ∈ (Val.insertAll virtuals e s xs).1, st = IoState.goodbit) :
    Put n (Val.insertAll virtuals e s xs).2.buf
      (acc ++ Val.image e s.swap s.align acc.length xs) := by
  induction xs generalizing s acc with
  | nil =>
    rw [Val.image, List.append_nil]
    exact h
  | cons x xs ih =>
    rw [Val.insertAll] at hg ⊢
    rcases @Val.insert_settings Unit virtuals e s x with ⟨hsw, hal⟩
    have hx : (x.insert virtuals e s).good := by
      rw [BinStream.good, hg _ (List.mem_cons_self ..), beq_self_eq_true]
    have hk := Val.insert_law (put_law n) h hx
    rw [(Val.pad_eq_gap_iff (put_origin _ _ h).1 (put_origin _ _ h).2).mpr (Nat.dvd_zero _)] at hk
    have hi := ih hk fun st hst ↦ hg st (List.mem_cons_of_mem _ hst)
    rw [hsw, hal, List.length_append] at hi
    rw [Val.image]
    dsimp only
    rwa [← List.append_assoc]

/-- Values extracted from where they were inserted are the same, and both streams end at one
offset, whatever the byte order, the host and the alignment are. -/
theorem memStream_roundTrip (e : Endian) (order : ByteOrder) (align : Bool) (p : List UInt8)
    (n : UInt32) (hn : n.toNat ≤ p.length) (xs olds : List Val)
    (ht : List.Forall₂ Val.SameType olds xs)
    (hg : ∀ st ∈ (Val.insertAll virtuals e
      (((OutMemBinStream p n.toNat).setByteOrder e order).setAlign align) xs).1,
      st = IoState.goodbit) :
    let out := (Val.insertAll virtuals e
      (((OutMemBinStream p n.toNat).setByteOrder e order).setAlign align) xs).2
    let got := Val.extractAll virtuals e
      (((InMemBinStream out.buf.mem n).setByteOrder e order).setAlign align) olds
    got.1 = xs ∧ (∀ st ∈ got.2.1, st = IoState.goodbit) ∧
      got.2.2.buf.gptr - got.2.2.buf.eback = out.buf.pptr - out.buf.pbase := by
  intro out got
  have h0 : Put n.toNat
      (((OutMemBinStream p n.toNat).setByteOrder e order).setAlign align).buf [] :=
    ⟨rfl, Nat.zero_le _, hn, rfl⟩
  have hput : Put n.toNat out.buf (Val.image e (order == swappedByteOrder e) align 0 xs) :=
    insertAll_law h0 hg
  have hget : Get out.buf.mem n.toNat
      (((InMemBinStream out.buf.mem n).setByteOrder e order).setAlign align).buf 0 := ⟨rfl, rfl⟩
  have hpre : Val.image e (order == swappedByteOrder e) align 0 xs <+:
      (out.buf.mem.take n.toNat).drop 0 := by
    rw [List.drop_zero]
    apply List.prefix_take_iff.mpr
    constructor
    · exact hput.mem ▸ List.take_prefix _ _
    · exact hput.length_le
  have hx := Val.extractAll_law (get_law hput.room) get_origin hget ht (aligned e _ olds) hpre
  rcases hx with ⟨hv, hgs, hk⟩
  refine ⟨hv, hgs, ?_⟩
  rw [hk.gptr_eq.1, hk.gptr_eq.2.1, hput.pptr_eq.1, hput.pptr_eq.2.1, Nat.zero_add]
  rfl

/-- A byte, a padded word and a bare one, in network order on a little-endian host. -/
theorem memStream_roundTrip_mixed :
    let out := (Val.insertAll virtuals .little
      (((OutMemBinStream (List.replicate 16 7) 12).setByteOrder .little .bigEndian).setAlign true)
      [.schar (-3), .uint32 5, .float 9]).2
    let got := Val.extractAll virtuals .little
      (((InMemBinStream out.buf.mem 12).setByteOrder .little .bigEndian).setAlign true)
      [.schar 0, .uint32 0, .float 0]
    got.1 = [.schar (-3), .uint32 5, .float 9] ∧ (∀ st ∈ got.2.1, st = IoState.goodbit) ∧
      got.2.2.buf.gptr - got.2.2.buf.eback = out.buf.pptr - out.buf.pbase :=
  memStream_roundTrip .little .bigEndian true (List.replicate 16 7) 12 (by decide)
    [.schar (-3), .uint32 5, .float 9] [.schar 0, .uint32 0, .float 0]
    (.cons trivial (.cons trivial (.cons trivial .nil)))
    ((@List.eq_replicate_iff _ _ 3 _).mp (by decide)).2

end MemBinStreamBuf
end CtrlrFx.Io
