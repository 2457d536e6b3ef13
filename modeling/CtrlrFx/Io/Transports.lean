import CtrlrFx.Io.InDevBinStream
import CtrlrFx.Io.MemBinStream
import CtrlrFx.Io.OutDevBinStream

/-!
# Layout across transports

Padding is counted from the begin of an area. In memory that is the begin of the data; over a
device the put area begins behind all that was sent, and the get area behind all but the last
few bytes that were read. Where these lie at multiples of the sizes to come, a device stream has
the layout of a memory stream.
-/

namespace CtrlrFx.Io
open Base

/-! ### Output -/

namespace OutDevBinStreamBuf
open Account

/-- Every write takes all that a full buffer offers. -/
def Complete (p : Port) : Prop := ∀ r ∈ p.wr, ∃ k, r = .upTo k ∧ bufSize ≤ k + 1

theorem Complete.lossless {p : Port} (h : Complete p) : p.Lossless := by
  intro r hr
  rcases h r hr with ⟨k, hk, -⟩
  exact ⟨k, hk⟩

theorem Complete.write {p : Port} (h : Complete p) {bs : List UInt8} (hb : bs.length ≤ bufSize) :
    (p.write bs).1 = bs.length := by
  have hm : bufSize ≤ Port.maxTransfer := by decide
  unfold Port.write
  split
  · rw [List.take_of_length_le (by omega)]
  · next hw =>
    rcases h .none (by rw [hw]; exact List.mem_cons_self ..) with ⟨k, hk, -⟩
    cases hk
  · next hw =>
    rcases h .err (by rw [hw]; exact List.mem_cons_self ..) with ⟨k, hk, -⟩
    cases hk
  · next k wr hw =>
    rcases h (.upTo k) (by rw [hw]; exact List.mem_cons_self ..) with ⟨k', hk, hle⟩
    cases hk
    dsimp only
    rw [List.take_of_length_le (by omega)]

/-- An open buffer whose writes take everything, and all that was put into it. -/
structure Sends (b : BinStreamBuf OutDev) (acc : List UInt8) : Prop extends Ready b where
  handle : 0 ≤ b.dev.m_wr
  complete : Complete b.dev.port
  through_eq : through b = acc

theorem sync_sends {b : BinStreamBuf OutDev} {acc : List UInt8} (h : Sends b acc) :
    Sends (sync b).2 acc ∧ (sync b).2.pptr = 0 := by
  have hlen := h.area.length_held
  have hall := @Complete.write _ h.complete (held b) (by rw [hlen]; exact h.area.pptr_le)
  rcases sync_through h.toReady h.handle with ⟨n, hn, -, hr, hptr, -, -, hiff⟩
  rcases sync_spec h.area h.handle hn with ⟨-, -, -, -, hdev⟩
  have hnl : n = (held b).length := by omega
  refine ⟨⟨hr, ?_, ?_, ?_⟩, by omega⟩
  · rw [hdev]
    exact h.handle
  · intro r hr
    rw [hdev] at hr
    dsimp only at hr
    rw [Port.wr_write] at hr
    exact h.complete r (List.mem_of_mem_tail hr)
  · rw [← h.through_eq, hiff, hnl]
    exact whole_of_complete _

theorem copyIn_sends {b : BinStreamBuf OutDev} {acc : List UInt8} (h : Sends b acc)
    (hp : b.hasPut) (x : UInt8) : Sends (b.copyIn [x]) (acc ++ [x]) := by
  rcases copyIn_spec h.area hp x with ⟨ha, hh, hd⟩
  refine ⟨⟨ha, hd ▸ h.lossless⟩, hd ▸ h.handle, hd ▸ h.complete, ?_⟩
  rw [through, hh, hd, ← List.append_assoc, ← through, h.through_eq]

theorem sputc_sends {b : BinStreamBuf OutDev} {acc : List UInt8} (h : Sends b acc) (x : UInt8) :
    0 ≤ (b.sputc virtuals x).1 ∧ Sends (b.sputc virtuals x).2 (acc ++ [x]) := by
  by_cases hp : b.hasPut
  · rw [BinStreamBuf.sputc_of_hasPut hp]
    exact ⟨Int.natCast_nonneg _, copyIn_sends h hp x⟩
  · rcases sputc_full h.toReady hp x with ⟨hc, -⟩ | ⟨hr, hs⟩
    · exact absurd h.handle (by omega)
    · rw [hs]
      exact ⟨Int.natCast_nonneg _, copyIn_sends (sync_sends h).1 hr x⟩

theorem sends_takes : BinStream.Takes virtuals Sends := fun _ _ x h ↦ (sputc_sends h x).1

theorem sends_law : BinStreamBuf.FirmPutLaw virtuals Sends where
  kept := fun x h _ ↦ (sputc_sends h x).2
  refused := fun x h hc ↦ absurd hc (Int.not_lt.mpr (sputc_sends h x).1)
  firm := fun x h hc ↦ absurd hc (Int.not_lt.mpr (sputc_sends h x).1)

theorem close_sends {b : BinStreamBuf OutDev} {acc : List UInt8} (h : Sends b acc) :
    (close b).dev.port.sent = acc := by
  rcases sync_sends h with ⟨hs, hptr⟩
  have hheld : held (sync b).2 = [] := List.eq_nil_of_length_eq_zero (by
    rw [hs.area.length_held, hptr])
  have ht := hs.through_eq
  rw [through, hheld, List.append_nil] at ht
  rw [close, if_pos h.handle]
  exact ht

/-- Behind the put area lies all that was sent. -/
theorem sends_origin {b : BinStreamBuf OutDev} {acc : List UInt8} (h : Sends b acc) :
    b.pbase ≤ b.pptr ∧ acc.length = b.dev.port.sent.length + (b.pptr - b.pbase) := by
  rw [h.area.pbase_eq, ← h.through_eq, through, List.length_append, h.area.length_held]
  omega

/-- A value to insert, or a flush between two. -/
inductive Item where
  | val (x : Val)
  | flush
  deriving DecidableEq, Repr

namespace Item

/-- The values of a list that has flushes between them. -/
def values : List Item → List Val
  | [] => []
  | .val x :: items => x :: values items
  | .flush :: items => values items

theorem values_append (is js : List Item) : values (is ++ js) = values is ++ values js := by
  induction is with
  | nil => rfl
  | cons i is ih =>
    cases i with
    | val x => exact congrArg (x :: ·) ih
    | flush => exact ih

variable (e : Endian)

def insertItems (s : BinStream OutDev) : List Item → BinStream OutDev
  | [] => s
  | .val x :: items => insertItems (x.insert virtuals e s) items
  | .flush :: items => insertItems (s.flush virtuals) items

/-- Each value is inserted when the number of bytes sent is a multiple of what it is aligned
to. -/
def Placed (s : BinStream OutDev) : List Item → Prop
  | [] => True
  | .val x :: items =>
    x.alignment s.align ∣ s.buf.dev.port.sent.length ∧ Placed (x.insert virtuals e s) items
  | .flush :: items => Placed (s.flush virtuals) items

variable {e}

theorem insert_sends {s : BinStream OutDev} {acc : List UInt8} (h : Sends s.buf acc) (x : Val) :
    Sends (x.insert virtuals e s).buf (acc ++ (x.pad s ++ x.bytes e s.swap)) :=
  Val.insert_law sends_law h (Val.insert_takes sends_law.toPutLaw sends_takes h x)

theorem flush_sends {s : BinStream OutDev} {acc : List UInt8} (h : Sends s.buf acc) :
    Sends (s.flush virtuals).buf acc := (sync_sends h).1

theorem insertItems_sends {s : BinStream OutDev} {acc : List UInt8} (h : Sends s.buf acc)
    (items : List Item) : ∃ acc', Sends (insertItems e s items).buf acc' := by
  induction items generalizing s acc with
  | nil => exact ⟨acc, h⟩
  | cons i items ih =>
    cases i with
    | val x => exact ih (insert_sends h x)
    | flush => exact ih (flush_sends h)

/-- Behind a value that was padded as its layout says, the layout goes on. -/
theorem append_image_cons {s : BinStream OutDev} {acc : List UInt8} {x : Val}
    (hpad : x.pad s = x.gap s.align acc.length) (xs : List Val) :
    acc ++ Val.image e s.swap s.align acc.length (x :: xs) =
      (acc ++ (x.pad s ++ x.bytes e s.swap)) ++ Val.image e (x.insert virtuals e s).swap
        (x.insert virtuals e s).align (acc ++ (x.pad s ++ x.bytes e s.swap)).length xs := by
  rcases @Val.insert_settings OutDev virtuals e s x with ⟨hsw, hal⟩
  rw [Val.image, hsw, hal, ← hpad]
  simp only [List.append_assoc, List.length_append]

/-- A value that went through as its layout says was padded so. -/
theorem pad_eq_gap_of_append {s : BinStream OutDev} {acc : List UInt8} {x : Val}
    (h : acc ++ (x.pad s ++ x.bytes e s.swap) =
      acc ++ Val.image e s.swap s.align acc.length [x]) :
    x.pad s = x.gap s.align acc.length := by
  rw [Val.image, Val.image, List.append_nil, List.append_cancel_left_eq,
    List.append_cancel_right_eq] at h
  exact h

/-- What goes through has the layout of the values after each of the items exactly if each value
is in place. -/
theorem through_iff {s : BinStream OutDev} {acc : List UInt8} (h : Sends s.buf acc)
    (items : List Item) :
    (∀ k, through (insertItems e s (items.take k)).buf =
      acc ++ Val.image e s.swap s.align acc.length (values (items.take k))) ↔
        Placed e s items := by
  induction items generalizing s acc with
  | nil =>
    constructor
    · intro _
      trivial
    · intro _ k
      rw [List.take_nil]
      exact h.through_eq.trans (List.append_nil _).symm
  | cons i items ih =>
    cases i with
    | flush =>
      have hi := ih (flush_sends h)
      constructor
      · intro hall
        exact hi.mp fun k ↦ hall (k + 1)
      · intro hpl k
        cases k with
        | zero => exact h.through_eq.trans (List.append_nil _).symm
        | succ k => exact hi.mpr hpl k
    | val x =>
      have hx := insert_sends (e := e) h x
      have hi := ih hx
      have hgap := @Val.pad_eq_gap_iff OutDev s x acc.length s.buf.dev.port.sent.length
        (sends_origin h).1 (sends_origin h).2
      constructor
      · intro hall
        have hpad := pad_eq_gap_of_append (hx.through_eq.symm.trans (hall 1))
        constructor
        · exact hgap.mp hpad
        · apply hi.mp
          intro k
          rw [← append_image_cons hpad]
          exact hall (k + 1)
      · rintro ⟨hd, hpl⟩ k
        cases k with
        | zero => exact h.through_eq.trans (List.append_nil _).symm
        | succ k =>
          rw [List.take_succ_cons, values, append_image_cons (hgap.mpr hd)]
          exact hi.mpr hpl k

end Item
end OutDevBinStreamBuf

/-! ### Input -/

namespace InDevBinStreamBuf

/-- Offset in the content at which the get area begins. -/
def origin (b : BinStreamBuf InDev) : Nat := b.dev.port.taken - (b.egptr - b.eback)

theorem reads_origin {content : List UInt8} (b : BinStreamBuf InDev) (p : Nat)
    (h : Reads content b p) : b.eback ≤ b.gptr ∧ p = origin b + (b.gptr - b.eback) := by
  have h1 := h.eback_le
  have h2 := h.gptr_le
  have h3 := h.got_le
  rw [origin, h.taken]
  omega

end InDevBinStreamBuf

/-! ### Both -/

namespace Transports
open OutDevBinStreamBuf (Item)

variable (e : Endian) (order : ByteOrder)

/-- A stream that aligns, with a byte order. -/
def aligning {δ : Type} (s : BinStream δ) : BinStream δ := (s.setByteOrder e order).setAlign true

/-- An output stream that was opened on a device, to which nothing was sent yet. -/
def outDev (m_buf : List UInt8) (wr : List Room) (fd : Nat) : BinStream OutDev :=
  aligning e order
    (OutDevBinStreamBuf.Account.opened m_buf { rd := [], wr, sent := [], taken := 0 } fd).stream

/-- An input stream that was opened on a device at which these chunks arrive. -/
def inDev (m_buf : List UInt8) (chunks : List (List UInt8)) (fd : Nat) : BinStream InDev :=
  aligning e order (InDevBinStreamBuf.opened m_buf (Port.deliver chunks) fd)

/-- The bytes that the device was sent for values and flushes when the stream is closed. -/
def sends (m_buf : List UInt8) (wr : List Room) (fd : Nat) (items : List Item) : List UInt8 :=
  (OutDevBinStreamBuf.close
    (Item.insertItems e (outDev e order m_buf wr fd) items).buf).dev.port.sent

/-- The bytes that memory holds for values. -/
def holds (mem : List UInt8) (n : Nat) (xs : List Val) : List UInt8 :=
  let b := (Val.insertAll MemBinStreamBuf.virtuals e
    (aligning e order (OutMemBinStream mem n)) xs).2.buf
  Block.read b.mem b.pbase (b.pptr - b.pbase)

/-- Each of the values was inserted into memory with the stream good behind it. -/
def Fits (mem : List UInt8) (n : Nat) (xs : List Val) : Prop :=
  ∀ st ∈ (Val.insertAll MemBinStreamBuf.virtuals e
    (aligning e order (OutMemBinStream mem n)) xs).1, st = IoState.goodbit

variable {e order}

theorem Fits.append_left {mem : List UInt8} {n : Nat} {xs ys : List Val}
    (h : Fits e order mem n (xs ++ ys)) : Fits e order mem n xs := by
  intro st hst
  apply h
  rw [Val.insertAll_append]
  exact List.mem_append_left _ hst

/-- Memory holds the values as their layout says. -/
theorem holds_eq {mem : List UInt8} {n : Nat} (hn : n ≤ mem.length) {xs : List Val}
    (h : Fits e order mem n xs) :
    holds e order mem n xs = Val.image e (order == swappedByteOrder e) true 0 xs := by
  have h0 : MemBinStreamBuf.Put n (aligning e order (OutMemBinStream mem n)).buf [] :=
    ⟨rfl, Nat.zero_le _, hn, rfl⟩
  have hput : MemBinStreamBuf.Put n (Val.insertAll MemBinStreamBuf.virtuals e
      (aligning e order (OutMemBinStream mem n)) xs).2.buf
      (Val.image e (order == swappedByteOrder e) true 0 xs) := MemBinStreamBuf.insertAll_law h0 h
  rw [holds, hput.pptr_eq.1, hput.pptr_eq.2.1, Nat.sub_zero, Block.read, List.drop_zero, hput.mem]

theorem outDev_sends {m_buf : List UInt8} (hm : m_buf.length = OutDevBinStreamBuf.bufSize)
    {wr : List Room} (hw : ∀ r ∈ wr, ∃ k, r = .upTo k ∧ OutDevBinStreamBuf.bufSize ≤ k + 1)
    (fd : Nat) : OutDevBinStreamBuf.Sends (outDev e order m_buf wr fd).buf [] where
  area := ⟨⟨0, Nat.zero_le _, rfl⟩, hm⟩
  lossless := OutDevBinStreamBuf.Complete.lossless hw
  handle := Int.natCast_nonneg fd
  complete := hw
  through_eq := rfl

/-- After each of the items the bytes sent are those that memory holds exactly if each value is
in place. -/
theorem sends_eq_iff {m_buf : List UInt8} (hm : m_buf.length = OutDevBinStreamBuf.bufSize)
    {wr : List Room} (hw : ∀ r ∈ wr, ∃ k, r = .upTo k ∧ OutDevBinStreamBuf.bufSize ≤ k + 1)
    (fd : Nat) {mem : List UInt8} {n : Nat} (hn : n ≤ mem.length) {items : List Item}
    (hf : Fits e order mem n (Item.values items)) :
    (∀ k, sends e order m_buf wr fd (items.take k) =
        holds e order mem n (Item.values (items.take k))) ↔
      Item.Placed e (outDev e order m_buf wr fd) items := by
  have h0 := @outDev_sends e order m_buf hm wr hw fd
  rw [← Item.through_iff h0]
  apply forall_congr'
  intro k
  rcases Item.insertItems_sends (e := e) h0 (items.take k) with ⟨acc, hk⟩
  have hs : sends e order m_buf wr fd (items.take k) =
      OutDevBinStreamBuf.Account.through
        (Item.insertItems e (outDev e order m_buf wr fd) (items.take k)).buf :=
    (OutDevBinStreamBuf.close_sends hk).trans hk.through_eq.symm
  have hfk : Fits e order mem n (Item.values (items.take k)) := by
    rw [← List.take_append_drop k items, Item.values_append] at hf
    exact hf.append_left
  rw [hs, holds_eq hn hfk]
  rfl

/-- A device gives the values of which it has the layout, where the get area begins for each at a
multiple of what it is aligned to. -/
theorem inDev_values {m_buf : List UInt8}
    (hm : m_buf.length = InDevBinStreamBuf.backBufSize + InDevBinStreamBuf.bufSize)
    {chunks : List (List UInt8)} (fd : Nat) {xs olds : List Val}
    (hc : chunks.flatten = Val.image e (order == swappedByteOrder e) true 0 xs)
    (ht : List.Forall₂ Val.SameType olds xs)
    (ha : Val.Aligned InDevBinStreamBuf.virtuals e InDevBinStreamBuf.origin
      (inDev e order m_buf chunks fd) olds) :
    (Val.extractAll InDevBinStreamBuf.virtuals e (inDev e order m_buf chunks fd) olds).1 = xs := by
  have h0 := InDevBinStreamBuf.opened_reads hm (Port.stops_deliver chunks) rfl fd
  rw [Port.pending_deliver] at h0
  have hpre : Val.image e (inDev e order m_buf chunks fd).swap
      (inDev e order m_buf chunks fd).align 0 xs <+: chunks.flatten.drop 0 := by
    rw [hc]
    exact List.prefix_refl _
  exact (Val.extractAll_law (InDevBinStreamBuf.get_law chunks.flatten)
    InDevBinStreamBuf.reads_origin (s := inDev e order m_buf chunks fd) h0 ht ha hpre).1

/-- Memory gives the values of which it has the layout. -/
theorem inMem_values {content : List UInt8} {n : UInt32} (hn : n.toNat = content.length)
    {xs olds : List Val} (hc : content = Val.image e (order == swappedByteOrder e) true 0 xs)
    (ht : List.Forall₂ Val.SameType olds xs) :
    (Val.extractAll MemBinStreamBuf.virtuals e (aligning e order (InMemBinStream content n))
      olds).1 = xs := by
  have h0 : MemBinStreamBuf.Get content n.toNat
      (aligning e order (InMemBinStream content n)).buf 0 := ⟨rfl, rfl⟩
  have hpre : Val.image e (aligning e order (InMemBinStream content n)).swap
      (aligning e order (InMemBinStream content n)).align 0 xs <+:
        (content.take n.toNat).drop 0 := by
    rw [hn, List.take_length, List.drop_zero, hc]
    exact List.prefix_refl _
  exact (Val.extractAll_law (MemBinStreamBuf.get_law (Nat.le_of_eq hn))
    MemBinStreamBuf.get_origin h0 ht (MemBinStreamBuf.aligned e _ olds) hpre).1

/-- After each of the items the bytes sent are those that memory holds exactly if each value was
inserted when the number of bytes sent was a multiple of what it is aligned to; and where the get
area begins, for each value, at a multiple of that, a device at which these bytes arrive in
chunks gives the values that memory gives. -/
theorem transports_agree (e : Endian) (order : ByteOrder) (m_out m_in mem : List UInt8)
    (hout : m_out.length = OutDevBinStreamBuf.bufSize)
    (hin : m_in.length = InDevBinStreamBuf.backBufSize + InDevBinStreamBuf.bufSize)
    (wr : List Room) (hw : ∀ r ∈ wr, ∃ k, r = .upTo k ∧ OutDevBinStreamBuf.bufSize ≤ k + 1)
    (fd : Nat) (n : Nat) (hn : n ≤ mem.length) (items : List Item)
    (hf : Fits e order mem n (Item.values items)) :
    ((∀ k, sends e order m_out wr fd (items.take k) =
        holds e order mem n (Item.values (items.take k))) ↔
      Item.Placed e (outDev e order m_out wr fd) items) ∧
    ∀ (chunks : List (List UInt8)) (len : UInt32) (olds : List Val),
      chunks.flatten = holds e order mem n (Item.values items) →
      len.toNat = chunks.flatten.length →
      List.Forall₂ Val.SameType olds (Item.values items) →
      Val.Aligned InDevBinStreamBuf.virtuals e InDevBinStreamBuf.origin
        (inDev e order m_in chunks fd) olds →
      (Val.extractAll InDevBinStreamBuf.virtuals e (inDev e order m_in chunks fd) olds).1 =
        (Val.extractAll MemBinStreamBuf.virtuals e
          (aligning e order (InMemBinStream chunks.flatten len)) olds).1 := by
  constructor
  · exact sends_eq_iff hout hw fd hn hf
  · intro chunks len olds hc hlen ht ha
    rw [holds_eq hn hf] at hc
    rw [inDev_values hin fd hc ht ha, inMem_values hlen hc ht]

/-- A flush at a multiple of four, and a chunk that ends within a word. -/
theorem transports_agree_flush :
    (∀ k, sends .little .littleEndian (List.replicate 512 0) [.upTo 600] 3
        ([.val (.byte 1), .val (.uint16 2), .flush, .val (.uint32 3)].take k) =
      holds .little .littleEndian (List.replicate 8 0) 8 (Item.values
        ([.val (.byte 1), .val (.uint16 2), .flush, .val (.uint32 3)].take k))) ∧
    (Val.extractAll InDevBinStreamBuf.virtuals .little
      (inDev .little .littleEndian (List.replicate 132 9) [[1, 0, 2], [0, 3, 0, 0, 0]] 3)
        [.byte 0, .uint16 0, .uint32 0]).1 =
      (Val.extractAll MemBinStreamBuf.virtuals .little (aligning .little .littleEndian
        (InMemBinStream [[1, 0, 2], [0, 3, 0, 0, 0]].flatten 8))
          [.byte 0, .uint16 0, .uint32 0]).1 := by
  have h := transports_agree .little .littleEndian (List.replicate 512 0) (List.replicate 132 9)
    (List.replicate 8 0) (List.length_replicate ..) (List.length_replicate ..) [.upTo 600]
    (fun r hr ↦ ⟨600, List.mem_singleton.mp hr, by decide⟩) 3 8 (Nat.le_refl 8)
    [.val (.byte 1), .val (.uint16 2), .flush, .val (.uint32 3)]
    ((@List.eq_replicate_iff _ _ 3 _).mp (by decide)).2
  constructor
  · exact h.1.mpr ⟨by decide, by decide, by decide, trivial⟩
  · exact h.2 _ 8 _ (by decide) (by decide)
      (.cons trivial (.cons trivial (.cons trivial .nil)))
      ⟨by decide, by decide, by decide, trivial⟩

/-- A flush behind a single byte moves the word that follows to another place. -/
theorem flush_moves : ¬∀ (e : Endian) (order : ByteOrder) (m_out mem : List UInt8)
    (wr : List Room) (fd n : Nat) (items : List Item), m_out.length = OutDevBinStreamBuf.bufSize →
      (∀ r ∈ wr, ∃ k, r = .upTo k ∧ OutDevBinStreamBuf.bufSize ≤ k + 1) → n ≤ mem.length →
      Fits e order mem n (Item.values items) →
      sends e order m_out wr fd items = holds e order mem n (Item.values items) := by
  intro h
  have hx := h .little .littleEndian (List.replicate 512 0) (List.replicate 8 0) [] 3 8
    [.val (.byte 1), .flush, .val (.uint16 2)] (List.length_replicate ..)
    (fun r hr ↦ absurd hr List.not_mem_nil) (Nat.le_refl 8)
    ((@List.eq_replicate_iff _ _ 2 _).mp (by decide)).2
  revert hx
  decide

end Transports
end CtrlrFx.Io
