import CtrlrFx.Base.Machine
import CtrlrFx.Io.InDevBinStream

/-!
# Putting back what came from a device

`sungetc` and `sputbackc` of `CtrlrFx/BinStreamBuf.h:180–188` over the refills of
`src/io/BinStream/DevBinStream.cpp:92–110`, which keep the last bytes in front of the new ones.
The get area is a window into the content of the device, and never reaches less far back than
the number of kept bytes, or the begin of the content.
-/

namespace CtrlrFx.Io
open Base

/-- Calls that move over the get area by a byte at most. -/
inductive GetOp where
  | get
  | peek
  | unget
  | putback (x : UInt8)
  deriving DecidableEq, Repr

namespace GetOp

variable {δ : Type}

/-- What is called of `CtrlrFx/BinStreamBuf.h:165–188`. -/
def call (v : Overrides δ) : GetOp → BinStreamBuf δ → Int × BinStreamBuf δ
  | get, b => b.sbumpc v
  | peek, b => b.sgetc v
  | unget, b => b.sungetc
  | putback x, b => b.sputbackc x

/-- Whether a call may need another byte of the content. -/
def forward : GetOp → Bool
  | get | peek => true
  | unget | putback _ => false

end GetOp

/-- A stream buffer with the number of bytes that were got and not put back, and the most that
this ever was. -/
structure Cursor (δ : Type) where
  buf : BinStreamBuf δ
  pos : Nat
  top : Nat
  deriving DecidableEq, Repr

namespace Cursor

variable {δ : Type}

/-- A call with its result. -/
def step (v : Overrides δ) (c : Cursor δ) (o : GetOp) : Int × Cursor δ :=
  let r := o.call v c.buf
  (r.1, match o with
    | .get => { buf := r.2, pos := c.pos + 1, top := max c.top (c.pos + 1) }
    | .peek => { c with buf := r.2 }
    | .unget | .putback _ =>
      if r.1 < 0 then { c with buf := r.2 } else { c with buf := r.2, pos := c.pos - 1 })

end Cursor

namespace InDevBinStreamBuf

/-- Calls on a stream that was opened on a device, of which none needs a byte behind the content
that comes in these chunks. -/
def device (m_buf : List UInt8) (chunks : List (List UInt8)) (fd : Nat) :
    Machine (Cursor InDev) GetOp where
  init c := c = { buf := (opened m_buf (Port.deliver chunks) fd).buf, pos := 0, top := 0 }
  step c o :=
    if o.forward ∧ chunks.flatten.length ≤ c.pos then none else some (c.step virtuals o).2

theorem device_step {m_buf : List UInt8} {chunks : List (List UInt8)} {fd : Nat}
    {c : Cursor InDev} {o : GetOp} (h : ¬(o.forward ∧ chunks.flatten.length ≤ c.pos)) :
    (device m_buf chunks fd).step c o = some (c.step virtuals o).2 := if_neg h

/-- The get area with what the device still has is the rest of the content from the begin of the
area on, and reaches back far enough. -/
structure Backed (content : List UInt8) (b : BinStreamBuf InDev) (p m : Nat) : Prop
    extends Reads content b p where
  window : content.drop (p - (b.gptr - b.eback)) =
    Block.read b.mem b.eback (b.egptr - b.eback) ++ b.dev.port.pending
  front : b.egptr = 0 ∨ backBufSize ≤ b.egptr
  le_top : p ≤ m
  top_le : m ≤ p + (b.egptr - b.gptr)
  enough : min backBufSize m ≤ b.gptr - b.eback + (m - p)

theorem opened_backed {m_buf : List UInt8} (hm : m_buf.length = backBufSize + bufSize)
    {port : Port} (hs : port.stops = []) (ht : port.taken = 0) (fd : Nat) :
    Backed port.pending (opened m_buf port fd).buf 0 0 where
  toReads := opened_reads hm hs ht fd
  window := rfl
  front := Or.inl rfl
  le_top := Nat.le_refl 0
  top_le := Nat.zero_le _
  enough := Nat.zero_le _

namespace Backed

variable {content : List UInt8} {b : BinStreamBuf InDev} {p m : Nat}

/-- The content from any place of the get area in front of the next one. -/
theorem drop_sub (h : Backed content b p m) {j : Nat} (hj : j ≤ b.gptr - b.eback) :
    content.drop (p - j) =
      Block.read b.mem (b.gptr - j) (j + (b.egptr - b.gptr)) ++ b.dev.port.pending := by
  have he := h.eback_le
  have hg := h.gptr_le
  have hgot := h.got_le
  have hle := h.egptr_le
  have hw := congrArg (List.drop (b.gptr - b.eback - j)) h.window
  have hsplit : b.egptr - b.eback = (b.gptr - b.eback - j) + (j + (b.egptr - b.gptr)) := by omega
  have hlen := Block.length_read b.mem b.eback (b.gptr - b.eback - j) (by omega)
  rw [List.drop_drop, hsplit, Block.read_add, List.append_assoc, List.drop_left' hlen,
    (by omega : p - (b.gptr - b.eback) + (b.gptr - b.eback - j) = p - j),
    (by omega : b.eback + (b.gptr - b.eback - j) = b.gptr - j)] at hw
  exact hw

/-- The bytes in front of the next place are the last ones that were got. -/
theorem read_sub (h : Backed content b p m) {j : Nat} (hj : j ≤ b.gptr - b.eback) :
    Block.read content (p - j) j = Block.read b.mem (b.gptr - j) j := by
  have he := h.eback_le
  have hg := h.gptr_le
  have hle := h.egptr_le
  rw [Block.read, h.drop_sub hj, Block.read_add, List.append_assoc,
    List.take_left' (Block.length_read _ _ _ (by omega))]

/-- The byte in front of the next place is the last one that was got. -/
theorem byteAt_sub (h : Backed content b p m) (hb : b.hasBack) :
    ∃ hp : p - 1 < content.length, 0 < p ∧ b.byteAt (b.gptr - 1) = content[p - 1] := by
  have hlt := BinStreamBuf.hasBack_iff.mp hb
  have hgot := h.got_le
  have hg := h.gptr_le
  have hle := h.egptr_le
  have hr := h.read_sub (j := 1) (by omega)
  have hlen := congrArg List.length hr
  rw [Block.length_read b.mem _ _ (by omega), Block.read, List.length_take,
    List.length_drop] at hlen
  have hp : p - 1 < content.length := by omega
  rw [Block.read_succ _ _ _ hp, Block.read_succ _ _ _ (by omega), List.cons.injEq] at hr
  refine ⟨hp, by omega, ?_⟩
  rw [BinStreamBuf.byteAt, List.getD_eq_getElem?_getD, List.getElem?_eq_getElem (by omega),
    Option.getD_some, hr.1]

/-- A byte of the get area is got. -/
theorem bump (h : Backed content b p m) (hg : b.hasGet) (hp : p < content.length) :
    b.byteAt b.gptr = content[p] ∧ Backed content (b.gbump 1) (p + 1) (max m (p + 1)) := by
  have hlt := BinStreamBuf.hasGet_iff.mp hg
  have hptr : (b.gbump 1).gptr = b.gptr + 1 := BinStreamBuf.gptr_gbump hg 1
  have he := h.eback_le
  have hgot := h.got_le
  have ht := h.le_top
  have htl := h.top_le
  have hen := h.enough
  rcases h.step_hasGet hg hp with ⟨hb, hr⟩
  constructor
  · exact hb
  · constructor
    · exact hr
    · rw [BinStreamBuf.eback_gbump, BinStreamBuf.egptr_gbump, hptr,
        (by omega : p + 1 - (b.gptr + 1 - b.eback) = p - (b.gptr - b.eback))]
      exact h.window
    · rw [BinStreamBuf.egptr_gbump]
      exact h.front
    · omega
    · rw [BinStreamBuf.egptr_gbump, hptr]
      omega
    · rw [BinStreamBuf.eback_gbump, hptr]
      omega

/-- A byte of the get area is put back. -/
theorem back (h : Backed content b p m) (hb : b.hasBack) :
    Backed content (b.gbump (-1)) (p - 1) m := by
  have hlt := BinStreamBuf.hasBack_iff.mp hb
  have hptr : (b.gbump (-1)).gptr = b.gptr - 1 := BinStreamBuf.gptr_gbump_back hb
  have hgot := h.got_le
  have hg := h.gptr_le
  have htaken := h.taken
  have ht := h.le_top
  have htl := h.top_le
  have hen := h.enough
  constructor
  · constructor
    · exact h.handle
    · exact h.length_mem
    · rw [BinStreamBuf.eback_gbump, hptr]
      omega
    · rw [BinStreamBuf.egptr_gbump, hptr]
      omega
    · rw [BinStreamBuf.egptr_gbump]
      exact h.egptr_le
    · rw [BinStreamBuf.eback_gbump, hptr]
      omega
    · rw [BinStreamBuf.egptr_gbump, hptr,
        (by omega : b.egptr - (b.gptr - 1) = 1 + (b.egptr - b.gptr))]
      exact h.drop_sub (by omega)
    · rw [BinStreamBuf.egptr_gbump, hptr]
      show b.dev.port.taken = _
      omega
    · exact h.stops
  · rw [BinStreamBuf.eback_gbump, BinStreamBuf.egptr_gbump, hptr,
      (by omega : p - 1 - (b.gptr - 1 - b.eback) = p - (b.gptr - b.eback))]
    exact h.window
  · rw [BinStreamBuf.egptr_gbump]
    exact h.front
  · omega
  · rw [BinStreamBuf.egptr_gbump, hptr]
    omega
  · rw [BinStreamBuf.eback_gbump, hptr]
    omega

/-- A refill has the last bytes in front of the new ones. -/
theorem read_saved (h : Backed content b p m) {nb : Nat}
    (hnb : min (b.gptr - b.eback) backBufSize = nb) :
    Block.read (Reads.saved b) (backBufSize - nb) nb = Block.read b.mem (b.gptr - nb) nb := by
  have he := h.eback_le
  have hg := h.gptr_le
  have hle := h.egptr_le
  have hmem := h.length_mem
  rw [Reads.saved, hnb]
  split
  · have hlen := Block.length_read b.mem (b.gptr - nb) nb (by omega)
    have hw := Block.read_write b.mem (backBufSize - nb) (Block.read b.mem (b.gptr - nb) nb)
      (by omega)
    rwa [hlen] at hw
  · rw [(by omega : nb = 0), Block.read_zero, Block.read_zero]

/-- A refill copies towards the front of the memory, so that a copy forwards is all right. -/
theorem saved_forwards (h : Backed content b p m) (he : ¬b.hasGet) :
    Reads.saved b = Block.copyForwards b.mem
      (backBufSize - min (b.gptr - b.eback) backBufSize)
      (b.gptr - min (b.gptr - b.eback) backBufSize) (min (b.gptr - b.eback) backBufSize) := by
  have hle : b.gptr ≤ b.mem.length := Nat.le_trans h.gptr_le h.egptr_le
  obtain ⟨nb, hnb⟩ : ∃ nb, min (b.gptr - b.eback) backBufSize = nb := ⟨_, rfl⟩
  rw [Reads.saved, hnb]
  split
  · next h0 =>
    have hfull : b.egptr ≤ b.gptr := Nat.le_of_not_lt fun hlt ↦ he (BinStreamBuf.hasGet_iff.mpr hlt)
    have hfront : backBufSize ≤ b.gptr := by
      rcases h.front with hz | hf
      · have hge := h.gptr_le
        omega
      · exact Nat.le_trans hf hfull
    have hsub : nb ≤ b.gptr := by omega
    have hto : backBufSize - nb ≤ b.gptr - nb := Nat.sub_le_sub_right hfront nb
    rw [Block.copyForwards_eq _ hto (by omega)]
  · rw [(by omega : nb = 0)]
    rfl

/-- The bytes that are kept and the `n` new ones behind them come next in the content. -/
theorem window_fill (h : Backed content b p m) {nb n : Nat}
    (hnb : min (b.gptr - b.eback) backBufSize = nb) (he : b.egptr ≤ b.gptr)
    (hle : n ≤ b.dev.port.pending.length) (hn : n ≤ bufSize) :
    content.drop (p - nb) = Block.read (Block.write (Reads.saved b) backBufSize
      (b.dev.port.pending.take n)) (backBufSize - nb) (nb + n) ++ b.dev.port.pending.drop n := by
  have h4 : nb ≤ backBufSize := hnb ▸ Nat.min_le_right _ _
  have hold := h.drop_sub (hnb ▸ Nat.min_le_left _ _)
  have hlen : (Reads.saved b).length = backBufSize + bufSize :=
    (Reads.length_saved b).trans h.length_mem
  have htl : (b.dev.port.pending.take n).length = n := List.length_take_of_le hle
  have hkept : Block.read (Block.write (Reads.saved b) backBufSize
      (b.dev.port.pending.take n)) (backBufSize - nb) nb = Block.read b.mem (b.gptr - nb) nb := by
    rw [← h.read_saved hnb, ← Block.read_take _ _ _ backBufSize (by omega),
      Block.take_write _ _ _ _ (Nat.le_refl _) (by omega), Block.read_take _ _ _ _ (by omega)]
  have hnew := Block.read_write (Reads.saved b) backBufSize (b.dev.port.pending.take n) (by omega)
  rw [htl] at hnew
  rw [Block.read_add, hkept, (by omega : backBufSize - nb + nb = backBufSize), hnew,
    List.append_assoc, List.take_append_drop, hold, (by omega : nb + (b.egptr - b.gptr) = nb)]

/-- In front of the end of the content, an empty get area is refilled. -/
theorem refill (h : Backed content b p m) (he : ¬b.hasGet) (hp : p < content.length) :
    0 ≤ (fill_buf b).1 ∧ (fill_buf b).2.get.isSome ∧ (fill_buf b).2.hasGet ∧
      Backed content (fill_buf b).2 p m := by
  rcases h.chunk he hp with ⟨n, h0, hle, hret, hbytes, ht⟩
  rcases h.fill he hret hbytes hle ht with ⟨hfret, hk, hs, hptr, heptr⟩
  obtain ⟨nb, hnb⟩ : ∃ nb, min (b.gptr - b.eback) backBufSize = nb := ⟨_, rfl⟩
  have hfill := Reads.fill_buf_of_ret h.handle hret
  have hback : (fill_buf b).2.eback = backBufSize - nb := by
    rw [hfill, hnb]
    rfl
  have hmem : (fill_buf b).2.mem =
      Block.write (Reads.saved b) backBufSize (b.dev.port.pending.take n) := by
    rw [hfill, hbytes]
  have hport : (fill_buf b).2.dev.port.pending = b.dev.port.pending.drop n := by
    rw [hfill]
    exact ht.pending
  have hlen := hk.length_mem
  have hfit := hk.egptr_le
  have htop := h.top_le
  have hen := h.enough
  rw [BinStreamBuf.hasGet_iff] at he
  refine ⟨by omega, hs, ?_, ?_⟩
  · rw [BinStreamBuf.hasGet_iff]
    omega
  · constructor
    · exact hk
    · rw [hptr, hback, heptr, hmem, hport, (by omega : backBufSize - (backBufSize - nb) = nb),
        (by omega : backBufSize + n - (backBufSize - nb) = nb + n)]
      exact h.window_fill hnb (by omega) hle (by omega)
    · right
      omega
    · exact h.le_top
    · rw [hptr, heptr]
      omega
    · rw [hptr, hback]
      omega

/-- In front of the end of the content its next byte is got, whatever was put back. -/
theorem sbumpc (h : Backed content b p m) (hp : p < content.length) :
    (b.sbumpc virtuals).1 = (content[p].toNat : Int) ∧
      Backed content (b.sbumpc virtuals).2 (p + 1) (max m (p + 1)) := by
  by_cases hg : b.hasGet
  · rcases h.bump hg hp with ⟨hb, hk⟩
    rw [BinStreamBuf.sbumpc_of_hasGet hg, hb]
    exact ⟨rfl, hk⟩
  · rcases h.refill hg hp with ⟨h0, hs, hg', hr⟩
    rcases hr.bump hg' hp with ⟨hb, hk⟩
    rw [h.sbumpc_fill hg h0 hs, hb]
    exact ⟨rfl, hk⟩

/-- Looking at the next byte is a refill at most. -/
theorem sgetc (h : Backed content b p m) (hp : p < content.length) :
    (b.sgetc virtuals).1 = (content[p].toNat : Int) ∧ Backed content (b.sgetc virtuals).2 p m := by
  rw [BinStreamBuf.sgetc]
  by_cases hg : b.hasGet
  · rw [if_pos hg, (h.bump hg hp).1]
    exact ⟨rfl, h⟩
  · rcases h.refill hg hp with ⟨h0, hs, hg', hr⟩
    rw [if_neg hg, h.underflow_fill hg h0, (hr.bump hg' hp).1]
    exact ⟨rfl, hr⟩

/-- A get is taken back, or nothing happens. -/
theorem sungetc (h : Backed content b p m) :
    b.hasBack ∧ 0 ≤ b.sungetc.1 ∧ Backed content b.sungetc.2 (p - 1) m ∨
      b.sungetc = (-1, b) := by
  by_cases hb : b.hasBack
  · left
    rw [BinStreamBuf.sungetc_of_hasBack hb]
    exact ⟨hb, Int.natCast_nonneg _, h.back hb⟩
  · right
    exact BinStreamBuf.sungetc_of_not hb

end Backed

/-- Every call keeps the window. -/
theorem step_backed {content : List UInt8} {c : Cursor InDev} {o : GetOp}
    (h : Backed content c.buf c.pos c.top) (ho : o.forward → c.pos < content.length) :
    Backed content (c.step virtuals o).2.buf (c.step virtuals o).2.pos
      (c.step virtuals o).2.top := by
  cases o with
  | get => exact (h.sbumpc (ho rfl)).2
  | peek => exact (h.sgetc (ho rfl)).2
  | unget =>
    rw [Cursor.step, GetOp.call]
    dsimp only
    rcases h.sungetc with ⟨-, h0, hk⟩ | hn
    · rw [if_neg (by omega)]
      exact hk
    · rw [hn, if_pos (show (-1 : Int) < 0 by decide)]
      exact h
  | putback x =>
    rw [Cursor.step, GetOp.call]
    dsimp only
    rcases c.buf.sputbackc_cases x with ⟨hb, hx⟩ | hn
    · rw [hx, BinStreamBuf.sungetc_of_hasBack hb, if_neg (by dsimp only; omega)]
      exact h.back hb
    · rw [hn, if_pos (show (-1 : Int) < 0 by decide)]
      exact h

theorem reachable_backed {m_buf : List UInt8} (hm : m_buf.length = backBufSize + bufSize)
    {chunks : List (List UInt8)} {fd : Nat} {c : Cursor InDev}
    (h : (device m_buf chunks fd).Reachable c) :
    Backed chunks.flatten c.buf c.pos c.top := by
  apply h.invariant (I := fun c ↦ Backed chunks.flatten c.buf c.pos c.top)
  · rintro c rfl
    have h0 := opened_backed hm (Port.stops_deliver chunks) rfl fd
    rwa [Port.pending_deliver] at h0
  · intro c o c' hc hs
    rw [device] at hs
    dsimp only at hs
    split at hs
    · cases hs
    · next hn =>
      rw [← Option.some.inj hs]
      apply step_backed hc
      intro ho
      by_contra hp
      exact hn ⟨ho, Nat.le_of_not_lt hp⟩

/-! ### What can be put back -/

/-- Gets taken back one after another, with what each gives. -/
def ungetEach : Nat → BinStreamBuf InDev → List Int × BinStreamBuf InDev
  | 0, b => ([], b)
  | n + 1, b =>
    let c := b.sungetc
    let r := ungetEach n c.2
    (c.1 :: r.1, r.2)

/-- As far back as the area reaches, the bytes come in reverse. -/
theorem Backed.ungetEach {content : List UInt8} {b : BinStreamBuf InDev} {p m j : Nat}
    (h : Backed content b p m) (hj : j ≤ b.gptr - b.eback) :
    (ungetEach j b).1 = (Block.read content (p - j) j).reverse.map (fun x ↦ (x.toNat : Int)) ∧
      Backed content (InDevBinStreamBuf.ungetEach j b).2 (p - j) m := by
  induction j generalizing b p with
  | zero =>
    rw [Block.read_zero]
    exact ⟨rfl, h⟩
  | succ j ih =>
    have hb : b.hasBack := BinStreamBuf.hasBack_iff.mpr (by omega)
    have hptr : (b.gbump (-1)).gptr = b.gptr - 1 := BinStreamBuf.gptr_gbump_back hb
    have heb := BinStreamBuf.eback_gbump b (-1)
    have hgot := h.got_le
    rcases h.byteAt_sub hb with ⟨hp, -, hx⟩
    rcases ih (h.back hb) (by omega) with ⟨hv, hk⟩
    rw [Nat.sub_sub, Nat.add_comm 1] at hv hk
    rw [InDevBinStreamBuf.ungetEach, BinStreamBuf.sungetc_of_hasBack hb]
    dsimp only
    rw [Block.read_add, (by omega : p - (j + 1) + j = p - 1), Block.read_succ _ _ _ hp,
      Block.read_zero, List.reverse_append, List.map_append, hv, hx]
    exact ⟨rfl, hk⟩

/-- How many gets can be taken back for certain: up to four behind the most that was got, of which
some were taken back since. After `k` gets in a row it is `min backBufSize k`. -/
def guarantee (c : Cursor InDev) : Nat := min backBufSize c.top - (c.top - c.pos)

/-- The next byte is the next one of the content; as many gets as are guaranteed can be taken
back, give the bytes in reverse, and the bytes are then got again with the rest behind them. What
a refill here keeps is what a `memcpy` that copies forwards keeps. -/
structure PutsBack (content : List UInt8) (c : Cursor InDev) : Prop where
  next : ∀ hp : c.pos < content.length,
    (c.buf.sbumpc virtuals).1 = (content[c.pos].toNat : Int)
  reach : guarantee c ≤ c.pos
  unget : ∀ j ≤ guarantee c, (ungetEach j c.buf).1 =
    (Block.read content (c.pos - j) j).reverse.map (fun x ↦ (x.toNat : Int))
  again : ∀ j ≤ guarantee c, ∀ n, c.pos - j + n ≤ content.length →
    (BinStreamBuf.getEach virtuals n (ungetEach j c.buf).2).1 = Block.read content (c.pos - j) n
  forwards : ¬c.buf.hasGet → Reads.saved c.buf = Block.copyForwards c.buf.mem
    (backBufSize - min (c.buf.gptr - c.buf.eback) backBufSize)
    (c.buf.gptr - min (c.buf.gptr - c.buf.eback) backBufSize)
    (min (c.buf.gptr - c.buf.eback) backBufSize)

/-- A stream can put back whatever the content, its chunks and the calls so far are. -/
theorem putback_guaranteed (m_buf : List UInt8) (hm : m_buf.length = backBufSize + bufSize)
    (chunks : List (List UInt8)) (fd : Nat) (c : Cursor InDev)
    (h : (device m_buf chunks fd).Reachable c) : PutsBack chunks.flatten c := by
  have hb := reachable_backed hm h
  have hen := hb.enough
  have hgot := hb.got_le
  have hle : guarantee c ≤ c.buf.gptr - c.buf.eback := by
    rw [guarantee]
    omega
  constructor
  · exact fun hp ↦ (hb.sbumpc hp).1
  · omega
  · exact fun j hj ↦ (hb.ungetEach (by omega)).1
  · intro j hj n hn
    have hk := (hb.ungetEach (j := j) (by omega)).2
    exact ((get_law chunks.flatten).getEach hk.toReads hn).1
  · exact hb.saved_forwards

/-- Three bytes got of four that come as two and two. -/
def threeGot : Cursor InDev :=
  let start : Cursor InDev :=
    { buf := (opened (List.replicate 132 0) (Port.deliver [[1, 2], [3, 4]]) 3).buf, pos := 0,
      top := 0 }
  (((start.step virtuals .get).2.step virtuals .get).2.step virtuals .get).2

theorem threeGot_reachable :
    (device (List.replicate 132 0) [[1, 2], [3, 4]] 3).Reachable threeGot := by
  apply Machine.Reachable.step (a := .get) _ (device_step (by decide))
  apply Machine.Reachable.step (a := .get) _ (device_step (by decide))
  apply Machine.Reachable.step (a := .get) _ (device_step (by decide))
  exact Machine.Reachable.init rfl

theorem putback_guaranteed_three : PutsBack [[1, 2], [3, 4]].flatten threeGot :=
  putback_guaranteed (List.replicate 132 0) (List.length_replicate ..) [[1, 2], [3, 4]] 3 threeGot
    threeGot_reachable

end InDevBinStreamBuf
end CtrlrFx.Io
