import CtrlrFx.Io.BinStream
import CtrlrFx.Io.Port

/-!
# Output to a device

`OutDevBinStreamBuf` of `src/io/BinStream/DevBinStream.cpp`: what is put is kept in a put area of
512 bytes and written to a device when that is full, when the stream is flushed and when it is
closed. A write may take less than it was offered.
-/

namespace CtrlrFx.Io
open Base

/-- Members that the class adds, and the device behind the handle, with the bytes that were
offered to each write so far and the number of them that it took;
`CtrlrFx/DevBinStream.h:118–119`. -/
structure OutDev where
  m_wr : Int
  port : Port
  writes : List (List UInt8 × Nat)
  deriving DecidableEq, Repr

namespace OutDev

/-- The system call; a handle that is not open is refused. -/
def write (d : OutDev) (bs : List UInt8) : Int × OutDev :=
  if d.m_wr < 0 then (-1, d)
  else
    let r := d.port.write bs
    (r.1, { d with port := r.2,
                   writes := if r.1 < 0 then d.writes else d.writes ++ [(bs, r.1.toNat)] })

end OutDev

namespace OutDevBinStreamBuf

/-- `CtrlrFx/DevBinStream.h:116`. -/
def bufSize : Nat := 512

/-- Bytes between the begin of the put area and the put position. -/
def held (b : BinStreamBuf OutDev) : List UInt8 := Block.read b.mem b.pbase (b.pptr - b.pbase)

/-- `src/io/BinStream/DevBinStream.cpp:269–280`. -/
def sync (b : BinStreamBuf OutDev) : Int × BinStreamBuf OutDev :=
  let r := b.dev.write (held b)
  let b := { b with dev := r.2 }
  if r.1 ≥ 0 then (0, b.pbump (-r.1)) else (-1, b)

/-- `overflow`, which calls itself through `sputc` as long as the device takes nothing;
`src/io/BinStream/DevBinStream.cpp:251–259`. -/
def overflowLoop : Nat → BinStreamBuf OutDev → Int → Int × BinStreamBuf OutDev
  | 0, b, _ => (-1, b)
  | k + 1, b, c =>
    let s := sync b
    if s.1 < 0 then (-1, s.2)
    else if c < 0 then (0, s.2)
    else
      let x := UInt8.ofInt c
      if s.2.hasPut then ((x.toNat : Int), s.2.copyIn [x])
      else overflowLoop k s.2 x.toNat

/-- Each call but the last uses up an answer of the device. -/
def overflow (b : BinStreamBuf OutDev) (c : Int) : Int × BinStreamBuf OutDev :=
  overflowLoop (b.dev.port.wr.length + 1) b c

/-- The class overrides these; its own `xsputn` has other parameters than that of the base, which
`sputn` calls. `CtrlrFx/DevBinStream.h:122–124`. -/
def virtuals : Overrides OutDev :=
  { Overrides.base OutDev with overflow := overflow, sync := sync }

/-- A new buffer, whose memory may hold anything; `src/io/BinStream/DevBinStream.cpp:163–166`. -/
def new (m_buf : List UInt8) (port : Port) : BinStreamBuf OutDev :=
  { mem := m_buf, get := none, put := some { beg := 0, next := 0, fin := bufSize },
    dev := { m_wr := -1, port, writes := [] } }

/-- `src/io/BinStream/DevBinStream.cpp:185–194`. -/
def close (b : BinStreamBuf OutDev) : BinStreamBuf OutDev :=
  if b.dev.m_wr ≥ 0 then
    let b := (sync b).2
    { b with dev := { b.dev with m_wr := -1 } }
  else b

/-- Opening gives the handle `fd`; `src/io/BinStream/DevBinStream.cpp:170–181`. -/
def open_ (b : BinStreamBuf OutDev) (fd : Int) : BinStreamBuf OutDev :=
  let b := close b
  { b with dev := { b.dev with m_wr := fd } }

/-! ### Steps -/

/-- The put area is that of the class, with `k` bytes in it. -/
structure Area (b : BinStreamBuf OutDev) : Prop where
  put_eq : ∃ k ≤ bufSize, b.put = some { beg := 0, next := k, fin := bufSize }
  length_mem : b.mem.length = bufSize

namespace Area

variable {b : BinStreamBuf OutDev}

theorem pbase_eq (h : Area b) : b.pbase = 0 := by
  rcases h.put_eq with ⟨k, -, hk⟩
  rw [BinStreamBuf.pbase, hk]
  rfl

theorem epptr_eq (h : Area b) : b.epptr = bufSize := by
  rcases h.put_eq with ⟨k, -, hk⟩
  rw [BinStreamBuf.epptr, hk]
  rfl

theorem isSome (h : Area b) : b.put.isSome := by
  rcases h.put_eq with ⟨k, -, hk⟩
  rw [hk]
  rfl

theorem pptr_le (h : Area b) : b.pptr ≤ bufSize := by
  rcases h.put_eq with ⟨k, hle, hk⟩
  rw [BinStreamBuf.pptr, hk]
  exact hle

theorem hasPut_iff (h : Area b) : b.hasPut ↔ b.pptr < bufSize := by
  rw [BinStreamBuf.hasPut_iff, h.epptr_eq]

theorem held_eq (h : Area b) : held b = b.mem.take b.pptr := by
  rw [held, h.pbase_eq, Nat.sub_zero, Block.read, List.drop_zero]

theorem length_held (h : Area b) : (held b).length = b.pptr := by
  rw [h.held_eq, List.length_take, h.length_mem, Nat.min_eq_left h.pptr_le]

end Area

variable {b : BinStreamBuf OutDev}

theorem sync_of_closed (h : b.dev.m_wr < 0) : sync b = (-1, b) := by
  have hw : b.dev.write (held b) = (-1, b.dev) := if_pos h
  rw [sync, hw]
  rfl

/-- What is written leaves the put area at its end, wherever it was in it. -/
theorem sync_spec (h : Area b) (ho : 0 ≤ b.dev.m_wr) {n : Nat}
    (hn : (b.dev.port.write (held b)).1 = n) :
    (sync b).1 = 0 ∧ Area (sync b).2 ∧ (sync b).2.pptr = b.pptr - n ∧ (sync b).2.mem = b.mem ∧
      (sync b).2.dev = { b.dev with port := (b.dev.port.write (held b)).2,
                                    writes := b.dev.writes ++ [(held b, n)] } := by
  have hle : n ≤ b.pptr := by
    have := Port.write_le b.dev.port (held b)
    rw [hn, h.length_held] at this
    omega
  have hw : b.dev.write (held b) =
      ((n : Int), { b.dev with port := (b.dev.port.write (held b)).2,
                               writes := b.dev.writes ++ [(held b, n)] }) := by
    rw [OutDev.write, if_neg (by omega)]
    simp only [hn, if_neg (by omega : ¬(n : Int) < 0), Int.toNat_natCast]
  rcases h.put_eq with ⟨k, hk, hput⟩
  have hptr : b.pptr = k := by
    rw [BinStreamBuf.pptr, hput]
    rfl
  have hs : sync b = (0, { b with
      put := some { beg := 0, next := k - n, fin := bufSize },
      dev := { b.dev with port := (b.dev.port.write (held b)).2,
                          writes := b.dev.writes ++ [(held b, n)] } }) := by
    have hnext : ((k : Int) + -n).toNat = k - n := by omega
    simp only [sync, hw, ge_iff_le, if_pos (Int.natCast_nonneg n), BinStreamBuf.pbump, hput,
      Option.map_some, hnext]
  rw [hs]
  refine ⟨rfl, ⟨⟨k - n, by omega, rfl⟩, h.length_mem⟩, ?_, rfl, rfl⟩
  rw [hptr]
  rfl

/-- A write that fails leaves the put area as it is. -/
theorem sync_of_failed (h : (b.dev.port.write (held b)).1 < 0) :
    (sync b).1 = -1 := by
  by_cases ho : b.dev.m_wr < 0
  · rw [sync_of_closed ho]
  · have hw : (b.dev.write (held b)).1 = (b.dev.port.write (held b)).1 := by
      rw [OutDev.write, if_neg ho]
    rw [sync]
    rw [if_neg (by omega)]

/-- Overflow writes the buffer out and puts the byte, as its source says. -/
theorem overflow_eq (h : Area b) (h0 : 0 < b.pptr) (c : Int) :
    overflow b c = if (sync b).1 < 0 then (-1, (sync b).2)
      else if c < 0 then (0, (sync b).2)
      else (sync b).2.sputc virtuals (UInt8.ofInt c) := by
  rw [overflow, overflowLoop]
  dsimp only
  by_cases hs : (sync b).1 < 0
  · rw [if_pos hs, if_pos hs]
  rw [if_neg hs, if_neg hs]
  by_cases hc : c < 0
  · rw [if_pos hc, if_pos hc]
  rw [if_neg hc, if_neg hc]
  by_cases hp : (sync b).2.hasPut
  · rw [if_pos hp, BinStreamBuf.sputc_of_hasPut hp]
  rw [if_neg hp, BinStreamBuf.sputc_of_not hp]
  have ho : 0 ≤ b.dev.m_wr := by
    by_contra ho
    rw [sync_of_closed (by omega)] at hs
    exact hs (show (-1 : Int) < 0 by decide)
  have hw : ¬(b.dev.port.write (held b)).1 < 0 := fun hw ↦ hs (by
    rw [sync_of_failed hw]
    decide)
  have hn : (b.dev.port.write (held b)).1 = ((b.dev.port.write (held b)).1.toNat : Nat) := by
    omega
  rcases sync_spec h ho hn with ⟨-, ha, hptr, -, hdev⟩
  rw [ha.hasPut_iff, hptr] at hp
  have hle := h.pptr_le
  have hwr : b.dev.port.wr.length = (sync b).2.dev.port.wr.length + 1 := by
    rw [hdev]
    dsimp only
    rw [Port.wr_write, List.length_tail]
    by_cases hnil : b.dev.port.wr = []
    · have hall := @Port.write_of_wr_nil b.dev.port (held b) hnil (by
        rw [h.length_held]
        exact Nat.le_trans hle (by decide))
      rw [h.length_held] at hall
      have hpos : 0 < bufSize := by decide
      omega
    · have := List.length_pos_iff.mpr hnil
      omega
  rw [hwr]
  rfl

/-- A byte for which there is room goes behind the bytes that are held. -/
theorem copyIn_spec (h : Area b) (hp : b.hasPut) (x : UInt8) :
    Area (b.copyIn [x]) ∧ held (b.copyIn [x]) = held b ++ [x] ∧ (b.copyIn [x]).dev = b.dev := by
  have hlt := h.hasPut_iff.mp hp
  have hmem := h.length_mem
  have hptr := @BinStreamBuf.pptr_copyIn OutDev b h.isSome [x]
    (by rw [List.length_singleton]; decide)
  rw [List.length_singleton] at hptr
  have ha : Area (b.copyIn [x]) := by
    rcases h.put_eq with ⟨k, hk, hput⟩
    have hk' : b.pptr = k := by
      rw [BinStreamBuf.pptr, hput]
      rfl
    constructor
    · exact ⟨k + 1, by omega, BinStreamBuf.put_copyIn_one hput x⟩
    · rw [BinStreamBuf.mem_copyIn, Block.length_write]
      exact hmem
  refine ⟨ha, ?_, rfl⟩
  rw [ha.held_eq, h.held_eq, hptr]
  exact Block.take_write_end b.mem b.pptr [x] (by rw [List.length_singleton]; omega)

/-! ### Histories -/

/-- What callers do with an open stream. -/
inductive Op where
  | put (x : UInt8)
  | write (bs : List UInt8)
  | flush
  | close
  deriving DecidableEq, Repr

/-- A stream with the bytes that it accepted. -/
structure Account where
  stream : BinStream OutDev
  accepted : List UInt8
  deriving DecidableEq, Repr

namespace Account

/-- A byte is accepted when `sputc` succeeds, and of a block as many as `sputn` says. -/
def step (a : Account) : Op → Account
  | .put x =>
    { stream := a.stream.put virtuals x
      accepted := a.accepted ++ if (a.stream.buf.sputc virtuals x).1 < 0 then [] else [x] }
  | .write bs =>
    { stream := a.stream.write virtuals bs
      accepted := a.accepted ++ bs.take (a.stream.buf.xsputn virtuals bs).1 }
  | .flush => { a with stream := a.stream.flush virtuals }
  | .close => { a with stream := { a.stream with buf := close a.stream.buf } }

def run (a : Account) (ops : List Op) : Account := ops.foldl step a

/-- A new stream that was opened with a handle. -/
def opened (m_buf : List UInt8) (port : Port) (fd : Nat) : Account :=
  { stream := .init (open_ (new m_buf port) fd), accepted := [] }

/-- Bytes that the device took, and behind them those that are held. -/
def through (b : BinStreamBuf OutDev) : List UInt8 := b.dev.port.sent ++ held b

end Account
open Account

/-- The bytes that a write leaves in the put area, which are its first ones, are those that the
device did not take. -/
def Whole (w : List UInt8 × Nat) : Prop := w.1.take (w.1.length - w.2) = w.1.drop w.2

instance : DecidablePred Whole := fun _ ↦ inferInstanceAs (Decidable (_ = _))

theorem whole_of_complete (bs : List UInt8) : Whole (bs, bs.length) := by
  rw [Whole, Nat.sub_self, List.take_zero, List.drop_length]

/-- A buffer that can be put to, and the device behind it. -/
structure Ready (b : BinStreamBuf OutDev) : Prop where
  area : Area b
  lossless : b.dev.port.Lossless

/-- As long as all writes were whole, what went through is all that was accepted. -/
structure Keeps (b : BinStreamBuf OutDev) (acc : List UInt8) : Prop extends Ready b where
  through_eq : (∀ w ∈ b.dev.writes, Whole w) → through b = acc

/-- Writing the buffer out leaves what went through as it was exactly if the write is whole. -/
theorem sync_through (h : Ready b) (ho : 0 ≤ b.dev.m_wr) :
    ∃ n : Nat, (b.dev.port.write (held b)).1 = n ∧ (sync b).1 = 0 ∧ Ready (sync b).2 ∧
      (sync b).2.pptr = b.pptr - n ∧ (0 < b.pptr → 0 < n) ∧
      (sync b).2.dev.writes = b.dev.writes ++ [(held b, n)] ∧
      (through (sync b).2 = through b ↔ Whole (held b, n)) := by
  rcases Port.write_lossless h.lossless (held b) with ⟨h0, hl⟩
  have hw := Port.write_wrote b.dev.port (held b)
  have hle := Port.write_le b.dev.port (held b)
  have hn : (b.dev.port.write (held b)).1 = ((b.dev.port.write (held b)).1.toNat : Nat) := by
    omega
  have hpos : 0 < b.pptr → 0 < (b.dev.port.write (held b)).1.toNat := by
    intro hp
    have hne : (held b).length ≠ 0 := by
      rw [h.area.length_held]
      omega
    have := ((Port.write_spec b.dev.port hne).2.2 h.lossless).1
    omega
  generalize (b.dev.port.write (held b)).1.toNat = n at hn hw hpos
  rcases sync_spec h.area ho hn with ⟨hs, ha, hptr, hmem, hdev⟩
  refine ⟨n, hn, hs, ⟨ha, ?_⟩, hptr, hpos, ?_, ?_⟩
  · rw [hdev]
    exact hl
  · rw [hdev]
  · have hh : held (sync b).2 = (held b).take ((held b).length - n) := by
      rw [ha.held_eq, hptr, hmem, h.area.length_held, h.area.held_eq, List.take_take,
        Nat.min_eq_left (Nat.sub_le _ _)]
    rw [through, through, hdev, hw.sent, hh, Whole, List.append_assoc, List.append_cancel_left_eq]
    constructor
    · intro heq
      exact List.append_cancel_left (heq.trans (List.take_append_drop n (held b)).symm)
    · intro heq
      rw [heq, List.take_append_drop]

theorem copyIn_keeps (hp : b.hasPut) (x : UInt8) {acc : List UInt8} (h : Keeps b acc) :
    Keeps (b.copyIn [x]) (acc ++ [x]) := by
  rcases copyIn_spec h.area hp x with ⟨ha, hh, hd⟩
  refine ⟨⟨ha, hd ▸ h.lossless⟩, ?_⟩
  intro hw
  rw [hd] at hw
  rw [through, hh, hd, ← List.append_assoc, ← through, h.through_eq hw]

theorem sync_keeps {acc : List UInt8} (h : Keeps b acc) : Keeps (sync b).2 acc := by
  by_cases ho : b.dev.m_wr < 0
  · rw [sync_of_closed ho]
    exact h
  · rcases sync_through h.toReady (by omega) with ⟨n, -, -, hr, -, -, hw, hiff⟩
    refine ⟨hr, ?_⟩
    intro hall
    rw [hw] at hall
    rw [hiff.mpr (hall _ (List.mem_append_right _ (List.mem_singleton_self _)))]
    exact h.through_eq fun w hm ↦ hall w (List.mem_append_left _ hm)

/-- A full buffer is written out before the next byte is put; a closed one stays as it is. -/
theorem sputc_full (h : Ready b) (hp : ¬b.hasPut) (x : UInt8) :
    (b.dev.m_wr < 0 ∧ b.sputc virtuals x = (-1, b)) ∨
      (sync b).2.hasPut ∧ b.sputc virtuals x = ((x.toNat : Int), (sync b).2.copyIn [x]) := by
  have hle := h.area.pptr_le
  have hfull : b.pptr = bufSize := by
    rw [h.area.hasPut_iff] at hp
    omega
  have h0 : 0 < b.pptr := by
    rw [hfull]
    decide
  rw [BinStreamBuf.sputc_of_not hp]
  have hover : virtuals.overflow b x.toNat = overflow b x.toNat := rfl
  rw [hover, overflow_eq h.area h0]
  by_cases ho : b.dev.m_wr < 0
  · left
    rw [sync_of_closed ho]
    exact ⟨ho, rfl⟩
  · right
    rcases sync_through h (by omega) with ⟨n, -, hs, hr, hptr, hpos, -, -⟩
    have hroom : (sync b).2.hasPut := by
      rw [hr.area.hasPut_iff, hptr]
      have := hpos h0
      omega
    refine ⟨hroom, ?_⟩
    rw [hs, if_neg (by decide), if_neg (by omega), byteOf_toNat,
      BinStreamBuf.sputc_of_hasPut hroom]

/-- Every byte that is accepted is kept, and no other. -/
theorem put_law : BinStreamBuf.PutLaw virtuals Keeps where
  kept := by
    intro b acc x h hc
    by_cases hp : b.hasPut
    · rw [BinStreamBuf.sputc_of_hasPut hp]
      exact copyIn_keeps hp x h
    · rcases sputc_full h.toReady hp x with ⟨-, hs⟩ | ⟨hr, hs⟩
      · rw [hs] at hc
        exact absurd hc (show ¬(0 : Int) ≤ -1 by decide)
      · rw [hs]
        exact copyIn_keeps hr x (sync_keeps h)
  refused := by
    intro b acc x h hc
    by_cases hp : b.hasPut
    · rw [BinStreamBuf.sputc_of_hasPut hp] at hc
      dsimp only at hc
      omega
    · rcases sputc_full h.toReady hp x with ⟨-, hs⟩ | ⟨hr, hs⟩
      · rw [hs]
        exact h
      · rw [hs] at hc
        dsimp only at hc
        omega

theorem sputc_keeps {acc : List UInt8} (h : Keeps b acc) (x : UInt8) :
    Keeps (b.sputc virtuals x).2
      (acc ++ if (b.sputc virtuals x).1 < 0 then [] else [x]) := by
  split
  · next hc =>
    rw [List.append_nil]
    exact put_law.refused x h hc
  · next hc => exact put_law.kept x h (by omega)

/-- No block is longer than the put area. -/
theorem xsputn_eq (h : Ready b) (bs : List UInt8) :
    b.xsputn virtuals bs = BinStreamBuf.putEach virtuals bs b := by
  apply @BinStreamBuf.xsputn_eq_putEach OutDev virtuals fun _ b ↦ ∃ acc, Keeps b acc
  · rintro n b ⟨acc, hk⟩
    have hlt : bufSize < 2 ^ 31 := by decide
    rw [hk.area.epptr_eq]
    omega
  · rintro n b x ⟨acc, hk⟩
    exact ⟨_, sputc_keeps hk x⟩
  · exact ⟨through b, ⟨h, fun _ ↦ rfl⟩⟩

theorem step_keeps {a : Account} {pre : List UInt8} (h : Keeps a.stream.buf (pre ++ a.accepted))
    (op : Op) : Keeps (a.step op).stream.buf (pre ++ (a.step op).accepted) := by
  cases op with
  | put x =>
    have hx := sputc_keeps h x
    rwa [List.append_assoc] at hx
  | write bs =>
    have hx := put_law.putEach h bs
    rw [List.append_assoc] at hx
    rw [step, BinStream.write, xsputn_eq h.toReady]
    exact hx
  | flush => exact sync_keeps h
  | close =>
    show Keeps (close a.stream.buf) _
    rw [close]
    split
    · rcases sync_keeps h with ⟨⟨ha, hl⟩, ht⟩
      exact ⟨⟨⟨ha.put_eq, ha.length_mem⟩, hl⟩, ht⟩
    · exact h

theorem run_keeps {a : Account} {pre : List UInt8} (h : Keeps a.stream.buf (pre ++ a.accepted))
    (ops : List Op) : Keeps (a.run ops).stream.buf (pre ++ (a.run ops).accepted) := by
  induction ops generalizing a with
  | nil => exact h
  | cons op ops ih => exact ih (step_keeps h op)

theorem opened_keeps {m_buf : List UInt8} (hm : m_buf.length = bufSize) {port : Port}
    (hl : port.Lossless) (fd : Nat) :
    Keeps (opened m_buf port fd).stream.buf (port.sent ++ (opened m_buf port fd).accepted) := by
  refine ⟨⟨⟨⟨0, Nat.zero_le _, rfl⟩, hm⟩, hl⟩, ?_⟩
  intro _
  rfl

/-- Whatever is put, written, flushed and closed, and however much each write of the system
takes: what the device took and what is held behind it is what was accepted, as long as no write
left other bytes in the put area than those that the device did not take. -/
theorem run_through {m_buf : List UInt8} (hm : m_buf.length = bufSize) {port : Port}
    (hl : port.Lossless) (fd : Nat) (ops : List Op) :
    (∀ w ∈ ((opened m_buf port fd).run ops).stream.buf.dev.writes, Whole w) →
      ((opened m_buf port fd).run ops).stream.buf.dev.port.sent ++
          held ((opened m_buf port fd).run ops).stream.buf =
        port.sent ++ ((opened m_buf port fd).run ops).accepted :=
  (run_keeps (opened_keeps hm hl fd) ops).through_eq

/-- A write that takes everything, and one that takes the first of two equal bytes. -/
theorem run_through_flushed :
    ((opened (List.replicate 512 0) ⟨[], [.upTo 600, .upTo 0], [], 0⟩ 3).run
        [.put 1, .write [2, 3], .flush, .write [4, 4], .flush]).stream.buf.dev.port.sent ++
      held ((opened (List.replicate 512 0) ⟨[], [.upTo 600, .upTo 0], [], 0⟩ 3).run
        [.put 1, .write [2, 3], .flush, .write [4, 4], .flush]).stream.buf =
      [] ++ ((opened (List.replicate 512 0) ⟨[], [.upTo 600, .upTo 0], [], 0⟩ 3).run
        [.put 1, .write [2, 3], .flush, .write [4, 4], .flush]).accepted :=
  run_through (List.length_replicate ..) (fun r hr ↦ by
    rcases List.mem_cons.mp hr with rfl | hr
    · exact ⟨600, rfl⟩
    · exact ⟨0, List.mem_singleton.mp hr⟩) 3 _ (by decide)

/-- A write that takes the first of two bytes leaves that in the buffer, and not the second. -/
theorem through_ne_accepted : ¬∀ (m_buf : List UInt8) (port : Port) (fd : Nat) (ops : List Op),
    m_buf.length = bufSize → port.Lossless →
      ((opened m_buf port fd).run ops).stream.buf.dev.port.sent ++
          held ((opened m_buf port fd).run ops).stream.buf =
        port.sent ++ ((opened m_buf port fd).run ops).accepted := by
  intro h
  have hx := h (List.replicate 512 0) ⟨[], [.upTo 0], [], 0⟩ 3 [.put 1, .put 2, .flush]
    (List.length_replicate ..) (fun r hr ↦ ⟨0, List.mem_singleton.mp hr⟩)
  revert hx
  decide

end OutDevBinStreamBuf
end CtrlrFx.Io
