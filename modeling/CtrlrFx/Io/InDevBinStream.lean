import CtrlrFx.Io.BinStream
import CtrlrFx.Io.Port

/-!
# Input from a device

`InDevBinStreamBuf` of `src/io/BinStream/DevBinStream.cpp`: a get area behind four bytes that are
kept for putting back. When it is empty it is refilled with what a read of the device gives.
-/

namespace CtrlrFx.Io
open Base

/-- Member that the class adds, and the device behind the handle;
`CtrlrFx/DevBinStream.h:60`. -/
structure InDev where
  m_rd : Int
  port : Port
  deriving DecidableEq, Repr

namespace InDev

/-- The system call; a handle that is not open is refused. -/
def read (d : InDev) (n : Nat) : Int × List UInt8 × InDev :=
  if d.m_rd < 0 then (-1, [], d)
  else
    let r := d.port.read n
    (r.ret, r.bytes, { d with port := r.port })

end InDev

namespace InDevBinStreamBuf

/-- `CtrlrFx/DevBinStream.h:56`. -/
def bufSize : Nat := 128

/-- `CtrlrFx/DevBinStream.h:57`. -/
def backBufSize : Nat := 4

/-- `memcpy` is taken to copy forwards; `src/io/BinStream/DevBinStream.cpp:92–110`. -/
def fill_buf (b : BinStreamBuf InDev) : Int × BinStreamBuf InDev :=
  let nb := min (b.gptr - b.eback) backBufSize
  let mem := if nb > 0 then
      Block.write b.mem (backBufSize - nb) (Block.read b.mem (b.gptr - nb) nb)
    else b.mem
  let r := b.dev.read bufSize
  let b := { b with mem := Block.write mem backBufSize r.2.1, dev := r.2.2 }
  if r.1 < 0 then (-1, { b with get := none })
  else (r.1, b.setg (backBufSize - nb) backBufSize (backBufSize + r.1.toNat))

/-- `src/io/BinStream/DevBinStream.cpp:150–156`. -/
def underflow (b : BinStreamBuf InDev) : Int × BinStreamBuf InDev :=
  if b.gptr = b.egptr then
    let r := fill_buf b
    if r.1 < 0 then (-1, r.2) else (((r.2.byteAt r.2.gptr).toNat : Int), r.2)
  else (((b.byteAt b.gptr).toNat : Int), b)

/-- The class overrides this; its own `xsgetn` has other parameters than that of the base, which
`sgetn` calls. `CtrlrFx/DevBinStream.h:64–66`. -/
def virtuals : Overrides InDev := { Overrides.base InDev with underflow := underflow }

/-- A new buffer, whose memory may hold anything; `src/io/BinStream/DevBinStream.cpp:51–54`. -/
def new (m_buf : List UInt8) (port : Port) : BinStreamBuf InDev :=
  { mem := m_buf, get := none, put := none, dev := { m_rd := -1, port } }

/-- A new stream that was opened with the handle `fd`;
`src/io/BinStream/DevBinStream.cpp:58–69`. -/
def opened (m_buf : List UInt8) (port : Port) (fd : Nat) : BinStream InDev :=
  let b := new m_buf port
  .init { b with dev := { b.dev with m_rd := fd } }

/-! ### Content -/

/-- The bytes in the get area and those that the device still has are the rest of the content,
of which `p` bytes were got. -/
structure Reads (content : List UInt8) (b : BinStreamBuf InDev) (p : Nat) : Prop where
  handle : 0 ≤ b.dev.m_rd
  length_mem : b.mem.length = backBufSize + bufSize
  eback_le : b.eback ≤ b.gptr
  gptr_le : b.gptr ≤ b.egptr
  egptr_le : b.egptr ≤ b.mem.length
  got_le : b.gptr - b.eback ≤ p
  rest : content.drop p = Block.read b.mem b.gptr (b.egptr - b.gptr) ++ b.dev.port.pending
  taken : b.dev.port.taken = p + (b.egptr - b.gptr)
  stops : b.dev.port.stops = []

theorem opened_reads {m_buf : List UInt8} (hm : m_buf.length = backBufSize + bufSize)
    {port : Port} (hs : port.stops = []) (ht : port.taken = 0) (fd : Nat) :
    Reads port.pending (opened m_buf port fd).buf 0 where
  handle := Int.natCast_nonneg fd
  length_mem := hm
  eback_le := Nat.le_refl 0
  gptr_le := Nat.le_refl 0
  egptr_le := Nat.zero_le _
  got_le := Nat.le_refl 0
  rest := rfl
  taken := ht
  stops := hs

namespace Reads

variable {content : List UInt8} {b : BinStreamBuf InDev} {p : Nat}

/-- A byte of the get area is the next one of the content. -/
theorem step_hasGet (h : Reads content b p) (hg : b.hasGet) (hp : p < content.length) :
    b.byteAt b.gptr = content[p] ∧ Reads content (b.gbump 1) (p + 1) := by
  have hlt := BinStreamBuf.hasGet_iff.mp hg
  have hle := h.egptr_le
  have hptr : (b.gbump 1).gptr = b.gptr + 1 := BinStreamBuf.gptr_gbump hg 1
  have hsplit : b.egptr - b.gptr = (b.egptr - (b.gptr + 1)) + 1 := by omega
  have hrest := h.rest
  rw [hsplit, Block.read_succ _ _ _ (by omega), List.drop_eq_getElem_cons hp, List.cons_append,
    List.cons.injEq] at hrest
  constructor
  · rw [BinStreamBuf.byteAt, List.getD_eq_getElem?_getD, List.getElem?_eq_getElem (by omega),
      Option.getD_some, hrest.1]
  · have he := h.eback_le
    have hgot := h.got_le
    have htaken := h.taken
    constructor
    · exact h.handle
    · exact h.length_mem
    · rw [BinStreamBuf.eback_gbump, hptr]
      omega
    · rw [BinStreamBuf.egptr_gbump, hptr]
      omega
    · rw [BinStreamBuf.egptr_gbump]
      exact hle
    · rw [BinStreamBuf.eback_gbump, hptr]
      omega
    · rw [BinStreamBuf.egptr_gbump, hptr]
      exact hrest.2
    · rw [BinStreamBuf.egptr_gbump, hptr]
      show b.dev.port.taken = _
      omega
    · exact h.stops

/-- The memory of a refill, whose back part has room for the bytes that are kept. -/
def saved (b : BinStreamBuf InDev) : List UInt8 :=
  let nb := min (b.gptr - b.eback) backBufSize
  if nb > 0 then Block.write b.mem (backBufSize - nb) (Block.read b.mem (b.gptr - nb) nb)
  else b.mem

theorem length_saved (b : BinStreamBuf InDev) : (saved b).length = b.mem.length := by
  rw [saved]
  split
  · exact Block.length_write _ _ _
  · rfl

/-- A read that does not fail makes a new get area, behind the bytes that are kept. -/
theorem fill_buf_of_ret (ho : 0 ≤ b.dev.m_rd) {n : Nat}
    (hn : (b.dev.port.read bufSize).ret = n) :
    fill_buf b = ((n : Int), { b with
      mem := Block.write (saved b) backBufSize (b.dev.port.read bufSize).bytes
      get := some { beg := backBufSize - min (b.gptr - b.eback) backBufSize, next := backBufSize,
                    fin := backBufSize + n }
      dev := { b.dev with port := (b.dev.port.read bufSize).port } }) := by
  have hread : b.dev.read bufSize = ((n : Int), (b.dev.port.read bufSize).bytes,
      { b.dev with port := (b.dev.port.read bufSize).port }) := by
    rw [InDev.read, if_neg (by omega)]
    dsimp only
    rw [hn]
  simp only [fill_buf, hread, if_neg (by omega : ¬(n : Int) < 0), Int.toNat_natCast]
  rfl

/-- What a refill of an empty get area with `n` bytes gives. -/
theorem fill (h : Reads content b p) (he : ¬b.hasGet) {n : Nat}
    (hn : (b.dev.port.read bufSize).ret = n)
    (hb : (b.dev.port.read bufSize).bytes = b.dev.port.pending.take n)
    (hle : n ≤ b.dev.port.pending.length)
    (ht : Port.Took b.dev.port n (b.dev.port.read bufSize).port) :
    (fill_buf b).1 = n ∧ Reads content (fill_buf b).2 p ∧
      (fill_buf b).2.get.isSome ∧
      (fill_buf b).2.gptr = backBufSize ∧ (fill_buf b).2.egptr = backBufSize + n := by
  have hge := h.gptr_le
  have hfull : b.gptr = b.egptr := by
    rw [BinStreamBuf.hasGet_iff] at he
    omega
  have hlen : n ≤ bufSize := by
    have := Port.length_read_le b.dev.port bufSize
    rw [hb, List.length_take] at this
    omega
  have hgot := h.got_le
  have hmem : (saved b).length = backBufSize + bufSize := (length_saved b).trans h.length_mem
  have htl : (b.dev.port.pending.take n).length = n := by
    rw [List.length_take]
    omega
  rw [fill_buf_of_ret h.handle hn, hb]
  refine ⟨rfl, ?_, rfl, rfl, rfl⟩
  constructor
  · exact h.handle
  · exact (Block.length_write _ _ _).trans hmem
  · exact Nat.sub_le _ _
  · exact Nat.le_add_right _ _
  · show backBufSize + n ≤ (Block.write (saved b) _ _).length
    rw [Block.length_write, hmem]
    omega
  · show backBufSize - (backBufSize - min (b.gptr - b.eback) backBufSize) ≤ p
    omega
  · show content.drop p = Block.read (Block.write (saved b) backBufSize
      (b.dev.port.pending.take n)) backBufSize (backBufSize + n - backBufSize) ++ _
    have hw := Block.read_write (saved b) backBufSize (b.dev.port.pending.take n) (by omega)
    rw [htl] at hw
    rw [Nat.add_sub_cancel_left, hw, ht.pending, List.take_append_drop, h.rest, hfull,
      Nat.sub_self, Block.read_zero, List.nil_append]
  · show (b.dev.port.read bufSize).port.taken = p + (backBufSize + n - backBufSize)
    rw [ht.taken, h.taken, hfull]
    omega
  · exact ht.stops_nil h.stops

/-- In front of the end of the content, a read for an empty get area gives some of the bytes that
are left. -/
theorem chunk (h : Reads content b p) (he : ¬b.hasGet) (hp : p < content.length) :
    ∃ n, 0 < n ∧ n ≤ b.dev.port.pending.length ∧ (b.dev.port.read bufSize).ret = (n : Int) ∧
      (b.dev.port.read bufSize).bytes = b.dev.port.pending.take n ∧
      Port.Took b.dev.port n (b.dev.port.read bufSize).port := by
  have hge := h.gptr_le
  have hpend : b.dev.port.pending = content.drop p := by
    have hrest := h.rest
    rw [BinStreamBuf.hasGet_iff] at he
    rw [(by omega : b.egptr - b.gptr = 0), Block.read_zero, List.nil_append] at hrest
    exact hrest.symm
  have hne : b.dev.port.pending ≠ [] := by
    rw [hpend, List.drop_eq_getElem_cons hp]
    exact List.cons_ne_nil _ _
  have h128 : 0 < bufSize := by decide
  rcases Port.read_spec h128 hne with ⟨n, h0, -, hle, hret, hbytes, ht⟩
  exact ⟨n, h0, hle, hret, hbytes, ht⟩

/-- Where the get area is empty, the next byte is that of a refill. -/
theorem underflow_fill (h : Reads content b p) (he : ¬b.hasGet) (h0 : 0 ≤ (fill_buf b).1) :
    virtuals.underflow b =
      ((((fill_buf b).2.byteAt (fill_buf b).2.gptr).toNat : Int), (fill_buf b).2) := by
  have hge := h.gptr_le
  have hfull : b.gptr = b.egptr := by
    rw [BinStreamBuf.hasGet_iff] at he
    omega
  show underflow b = _
  rw [underflow, if_pos hfull]
  dsimp only
  rw [if_neg (by omega)]

/-- Where the get area is empty, a byte is got from a refill. -/
theorem sbumpc_fill (h : Reads content b p) (he : ¬b.hasGet) (h0 : 0 ≤ (fill_buf b).1)
    (hs : (fill_buf b).2.get.isSome) :
    b.sbumpc virtuals = ((((fill_buf b).2.byteAt (fill_buf b).2.gptr).toNat : Int),
      (fill_buf b).2.gbump 1) := by
  rw [BinStreamBuf.sbumpc_of_not he, BinStreamBuf.uflow, h.underflow_fill he h0]
  dsimp only
  rw [if_pos ⟨by omega, hs⟩]

/-- At the end of the content there is nothing in the get area and nothing in the device. -/
theorem empty (h : Reads content b p) (hp : content.length ≤ p) :
    ¬b.hasGet ∧ b.dev.port.pending = [] := by
  have hrest := h.rest
  rw [List.drop_eq_nil_of_le hp] at hrest
  have hnil := List.append_eq_nil_iff.mp hrest.symm
  have hlen := congrArg List.length hnil.1
  have hge := h.gptr_le
  have hle := h.egptr_le
  rw [Block.length_read _ _ _ (by omega), List.length_nil] at hlen
  refine ⟨?_, hnil.2⟩
  rw [BinStreamBuf.hasGet_iff]
  omega

/-- A get at the end of the content gives a byte from the start of the get area, behind which the
position then is. -/
theorem past_end (h : Reads content b p) (hp : content.length ≤ p) :
    0 ≤ (b.sbumpc virtuals).1 ∧
      (b.sbumpc virtuals).2.egptr < (b.sbumpc virtuals).2.gptr := by
  rcases h.empty hp with ⟨he, hpend⟩
  have hr := Port.read_eof bufSize hpend h.stops
  have hf := h.fill he (n := 0) (by rw [hr]; rfl) (by rw [hr]; rfl) (Nat.zero_le _)
    (by rw [hr]; exact Port.Took.refl _)
  rcases hf with ⟨hret, -, hs, hptr, heptr⟩
  rw [h.sbumpc_fill he (by omega) hs]
  constructor
  · exact Int.natCast_nonneg _
  · show ((fill_buf b).2.gbump 1).egptr < ((fill_buf b).2.gbump 1).gptr
    rcases Option.isSome_iff_exists.mp hs with ⟨a, ha⟩
    have hnext : a.next = backBufSize := by
      rw [← hptr, BinStreamBuf.gptr, ha]
      rfl
    have hg : ((fill_buf b).2.gbump 1).gptr = a.next + 1 := by
      rw [BinStreamBuf.gptr, BinStreamBuf.gbump, ha]
      rfl
    rw [BinStreamBuf.egptr_gbump, heptr, hg, hnext]
    omega

end Reads

/-- The content of the device is got in order, in whatever chunks the reads give it. -/
theorem get_law (content : List UInt8) :
    BinStreamBuf.GetLaw virtuals content (Reads content) where
  got := by
    intro b p h hp
    by_cases hg : b.hasGet
    · rcases h.step_hasGet hg hp with ⟨hb, hk⟩
      rw [BinStreamBuf.sbumpc_of_hasGet hg, hb]
      exact ⟨rfl, hk⟩
    · rcases h.chunk hg hp with ⟨n, h0, hle, hret, hbytes, ht⟩
      rcases h.fill hg hret hbytes hle ht with ⟨hfret, hk, hs, hptr, heptr⟩
      have hg' : (fill_buf b).2.hasGet := by
        rw [BinStreamBuf.hasGet_iff, hptr, heptr]
        omega
      rcases hk.step_hasGet hg' hp with ⟨hb, hk'⟩
      rw [h.sbumpc_fill hg (by omega) hs, hb]
      exact ⟨rfl, hk'⟩

/-! ### Single bytes to the end -/

/-- The stream after so many calls of `get`. -/
def after (s : BinStream InDev) : Nat → BinStream InDev
  | 0 => s
  | k + 1 => ((after s k).get virtuals).2

theorem after_reads {content : List UInt8} {s : BinStream InDev} (h : Reads content s.buf 0)
    {k : Nat} (hk : k ≤ content.length) : Reads content (after s k).buf k := by
  induction k with
  | zero => exact h
  | succ k ih => exact (BinStream.get_law (get_law content) (ih (by omega)) (by omega)).2.2

/-- Until then every call gives the next byte, with the stream good behind it. -/
theorem get_in_order {content : List UInt8} {s : BinStream InDev} (h : Reads content s.buf 0)
    {k : Nat} (hk : k < content.length) :
    ((after s k).get virtuals).1 = (content[k].toNat : Int) ∧
      ((after s k).get virtuals).2.good := by
  have hx := BinStream.get_law (get_law content) (after_reads h (Nat.le_of_lt hk)) hk
  exact ⟨hx.1, hx.2.1⟩

/-- A stream gives its content and then nothing but failures, and its get position stays in the
get area. -/
structure Yields (s : BinStream InDev) (content : List UInt8) : Prop where
  in_order : ∀ k, (h : k < content.length) →
    ((after s k).get virtuals).1 = (content[k].toNat : Int)
  at_end : ∀ k, content.length ≤ k → ((after s k).get virtuals).1 < 0 ∧
    ((after s k).get virtuals).2.eof ∧ ((after s k).get virtuals).2.fail
  block : ∀ k n, k ≤ content.length → content.length < k + n →
    ((after s k).getBlock virtuals n).2.fail
  gptr_le : ∀ k, (after s k).buf.gptr ≤ (after s k).buf.egptr

/-- No stream does: whatever the content and its chunks, the call behind the last byte gives
another byte, and the get position leaves the get area. -/
theorem not_yields {m_buf : List UInt8} (hm : m_buf.length = backBufSize + bufSize)
    (chunks : List (List UInt8)) (fd : Nat) :
    ¬Yields (opened m_buf (Port.deliver chunks) fd) chunks.flatten := by
  intro h
  have h0 := opened_reads hm (Port.stops_deliver chunks) rfl fd
  rw [Port.pending_deliver] at h0
  have hend := (after_reads h0 (Nat.le_refl _)).past_end (Nat.le_refl _)
  have hget := (h.at_end _ (Nat.le_refl _)).1
  rw [BinStream.get] at hget
  dsimp only at hget
  omega

theorem not_yields_one :
    ¬Yields (opened (List.replicate 132 0) (Port.deliver [[5]]) 3) [[5]].flatten :=
  not_yields (List.length_replicate ..) [[5]] 3

/-- After the byte 5 the stream gives the 5 again. -/
theorem stale_byte : ¬∀ (m_buf : List UInt8) (chunks : List (List UInt8)) (fd : Nat),
    m_buf.length = backBufSize + bufSize →
      Yields (opened m_buf (Port.deliver chunks) fd) chunks.flatten := by
  intro h
  have hx := (h (List.replicate 132 0) [[5]] 3 (List.length_replicate ..)).at_end 1
    (by decide)
  revert hx
  decide

end InDevBinStreamBuf
end CtrlrFx.Io
