import CtrlrFx.Io.MemBinStream

/-!
# The byte order a stream declares

`byte_order` of `src/io/BinStream/BinStreamBase.cpp:52–60`, set and asked for, over the inserters
of `CtrlrFx/BinStream.h:215–272`. The order is kept as a flag that says whether it is not the
host's.
-/

namespace CtrlrFx.Io
open Base

/-- The host whose own order it is. -/
def ByteOrder.host : ByteOrder → Endian
  | littleEndian => .little
  | bigEndian => .big

theorem ByteOrder.host_cases (o : ByteOrder) (e : Endian) : o.host = e ∨ o.host = e.flip := by
  cases o <;> cases e <;> decide

namespace BinStream

variable {δ : Type}

/-- `src/io/BinStream/BinStreamBase.cpp:52–55`. -/
def byteOrder (e : Endian) (s : BinStream δ) : ByteOrder :=
  if s.swap then hostByteOrder e else swappedByteOrder e

/-- Orders set one after another. -/
def setOrders (e : Endian) (s : BinStream δ) (os : List ByteOrder) : BinStream δ :=
  os.foldl (setByteOrder e) s

theorem setOrders_concat (e : Endian) (s : BinStream δ) (os : List ByteOrder) (o : ByteOrder) :
    s.setOrders e (os ++ [o]) = (s.setOrders e os).setByteOrder e o := by
  rw [setOrders, List.foldl_append]
  rfl

theorem setOrders_buf (e : Endian) (s : BinStream δ) (os : List ByteOrder) :
    (s.setOrders e os).buf = s.buf ∧ (s.setOrders e os).align = s.align := by
  induction os generalizing s with
  | nil => exact ⟨rfl, rfl⟩
  | cons o os ih => exact ih (s.setByteOrder e o)

/-- The order that is reported is the one that was not set. -/
theorem byteOrder_ne {e : Endian} {o : ByteOrder} {s : BinStream δ}
    (h : s.swap = (o == swappedByteOrder e)) : s.byteOrder e ≠ o := by
  rw [byteOrder, h]
  cases e <;> cases o <;> decide

end BinStream

namespace Val

/-- A `float` or `double` reads the same in both orders. -/
def Symmetric : Val → Prop
  | float w => (NativeRep.bytes .little w).reverse = NativeRep.bytes .little w
  | double w => (NativeRep.bytes .little w).reverse = NativeRep.bytes .little w
  | _ => True

/-- The bytes in an order. -/
def ordered (o : ByteOrder) (x : Val) : List UInt8 := x.bytes o.host false

/-- The flag that is kept of an order says that it is not the host's. -/
theorem beq_swapped {e : Endian} {o : ByteOrder} :
    (o == swappedByteOrder e) = decide (o.host ≠ e) := by
  cases e <;> cases o <;> decide

/-- A word that is swapped if the order is not the host's has its bytes in the order. -/
theorem swapBytes_encode (e : Endian) (o : ByteOrder) (n w : Nat) :
    BinStream.swapBytes (o == swappedByteOrder e) (e.encode n w) = o.host.encode n w := by
  rw [beq_swapped]
  rcases o.host_cases e with h | h
  · rw [h, decide_eq_false (by rw [not_not])]
    rfl
  · have hne : e.flip ≠ e := by cases e <;> decide
    rw [h, decide_eq_true hne, Endian.encode_flip]
    exact swapInPlace_eq_reverse _

/-- A word that is taken as it comes has its bytes in the order if that is the host's, or if the
word is the same in both. -/
theorem encode_eq_iff (e : Endian) (o : ByteOrder) (n w : Nat) :
    e.encode n w = o.host.encode n w ↔
      o.host = e ∨ (Endian.little.encode n w).reverse = Endian.little.encode n w := by
  rcases o.host_cases e with h | h
  · rw [h]
    exact iff_of_true rfl (Or.inl rfl)
  · have hne : e.flip ≠ e := by cases e <;> decide
    rw [h, or_iff_right hne]
    cases e with
    | little =>
      rw [Endian.encode_flip]
      exact eq_comm
    | big => rw [← Endian.encode_flip]; rfl

/-- The bytes that are inserted for a value are those in the order set, but for a `float` or
`double` only if the order is the host's or the word is the same in both. -/
theorem bytes_eq_ordered_iff (e : Endian) (o : ByteOrder) (x : Val) :
    x.bytes e (o == swappedByteOrder e) = x.ordered o ↔ o.host = e ∨ x.Symmetric := by
  cases x with
  | float w => exact encode_eq_iff e o 4 w.toNat
  | double w => exact encode_eq_iff e o 8 w.toNat
  | int16 x => exact iff_of_true (swapBytes_encode e o 2 _) (Or.inr trivial)
  | uint16 x => exact iff_of_true (swapBytes_encode e o 2 _) (Or.inr trivial)
  | int32 x => exact iff_of_true (swapBytes_encode e o 4 _) (Or.inr trivial)
  | uint32 x => exact iff_of_true (swapBytes_encode e o 4 _) (Or.inr trivial)
  | bool b => exact iff_of_true rfl (Or.inr trivial)
  | byte x => exact iff_of_true rfl (Or.inr trivial)
  | schar x => exact iff_of_true rfl (Or.inr trivial)

/-- Values have as many bytes on any host, swapped or not. -/
theorem length_bytes_eq (e e' : Endian) (swap swap' : Bool) (x : Val) :
    (x.bytes e swap).length = (x.bytes e' swap').length := by
  cases x <;> simp [bytes]

theorem length_image_eq (e e' : Endian) (swap swap' align : Bool) (p : Nat) (xs : List Val) :
    (image e swap align p xs).length = (image e' swap' align p xs).length := by
  induction xs generalizing p with
  | nil => rfl
  | cons x xs ih =>
    have hx := length_bytes_eq e e' swap swap' x
    rw [image, image]
    simp only [List.length_append]
    rw [hx, ih]

/-- Two layouts are the same if their values have the same bytes. -/
theorem image_eq_iff {e e' : Endian} {swap swap' align : Bool} (p : Nat) (xs : List Val) :
    image e swap align p xs = image e' swap' align p xs ↔
      ∀ x ∈ xs, x.bytes e swap = x.bytes e' swap' := by
  induction xs generalizing p with
  | nil => simp [image]
  | cons x xs ih =>
    have hx := length_bytes_eq e e' swap swap' x
    have hl : (gap align p x ++ x.bytes e swap).length =
        (gap align p x ++ x.bytes e' swap').length := by
      rw [List.length_append, List.length_append, hx]
    rw [image, image, List.forall_mem_cons]
    constructor
    · intro h
      rcases List.append_inj h hl with ⟨hb, hr⟩
      rw [← hl] at hr
      exact ⟨List.append_cancel_left hb, (ih _).mp hr⟩
    · rintro ⟨hb, hr⟩
      rw [hb, (ih _).mpr hr]

theorem insertAll_settings {δ : Type} (v : Overrides δ) (e : Endian) (s : BinStream δ)
    (xs : List Val) : (insertAll v e s xs).2.swap = s.swap := by
  induction xs generalizing s with
  | nil => rfl
  | cons x xs ih => exact (ih (x.insert v e s)).trans (insert_settings s x).1

end Val

namespace MemBinStreamBuf

/-- The bytes of the values are in the memory one behind the other, each value's in an order. -/
def Stored (o : ByteOrder) (align : Bool) (out : BinStream Unit) (xs : List Val) : Prop :=
  out.buf.mem.take (Val.image o.host false align 0 xs).length = Val.image o.host false align 0 xs

/-- The order of a stream is the one it reports, and that of the values inserted. -/
structure Describes (e : Endian) (o : ByteOrder) (align : Bool) (out : BinStream Unit)
    (xs : List Val) : Prop where
  reported : out.byteOrder e = o
  stored : Stored o align out xs

/-- A stream over memory for which orders were set, the last one `o`. -/
def ordered (e : Endian) (p : List UInt8) (n : Nat) (align : Bool) (os : List ByteOrder)
    (o : ByteOrder) : BinStream Unit :=
  ((OutMemBinStream p n).setAlign align).setOrders e (os ++ [o])

/-- No stream describes its bytes: it always reports the other order. The bytes of values that
were inserted without failure are in the order set exactly if that is the host's, or each `float`
and `double` is the same in both. -/
theorem order_not_described (e : Endian) (p : List UInt8) (n : Nat) (align : Bool)
    (os : List ByteOrder) (o : ByteOrder) (xs : List Val) :
    let r := Val.insertAll virtuals e (ordered e p n align os o) xs
    ¬Describes e o align r.2 xs ∧ r.2.byteOrder e ≠ o ∧
      (n ≤ p.length → (∀ st ∈ r.1, st = IoState.goodbit) →
        (Stored o align r.2 xs ↔ o.host = e ∨ ∀ x ∈ xs, x.Symmetric)) := by
  intro r
  have hswap : (ordered e p n align os o).swap = (o == swappedByteOrder e) := by
    rw [ordered, BinStream.setOrders_concat]
    rfl
  have hset := BinStream.setOrders_buf e ((OutMemBinStream p n).setAlign align) (os ++ [o])
  have hne : r.2.byteOrder e ≠ o :=
    BinStream.byteOrder_ne ((Val.insertAll_settings virtuals e _ xs).trans hswap)
  refine ⟨fun h ↦ hne h.reported, hne, ?_⟩
  intro hn hg
  have h0 : Put n (ordered e p n align os o).buf [] := by
    rw [ordered, hset.1]
    exact ⟨rfl, Nat.zero_le _, hn, rfl⟩
  have hput := (insertAll_law h0 hg).mem
  have hlen := Val.length_image_eq e o.host (o == swappedByteOrder e) false align 0 xs
  rw [List.nil_append, List.length_nil, hswap,
    (show (ordered e p n align os o).align = align from hset.2), hlen] at hput
  have heach : (∀ x ∈ xs, x.bytes e (o == swappedByteOrder e) = x.bytes o.host false) ↔
      o.host = e ∨ ∀ x ∈ xs, x.Symmetric := by
    constructor
    · intro h
      by_cases ho : o.host = e
      · exact Or.inl ho
      · exact Or.inr fun x hx ↦ ((Val.bytes_eq_ordered_iff e o x).mp (h x hx)).resolve_left ho
    · exact fun h x hx ↦ (Val.bytes_eq_ordered_iff e o x).mpr (h.imp_right fun hs ↦ hs x hx)
  rw [← heach, ← @Val.image_eq_iff e o.host _ false align 0 xs, Stored]
  constructor
  · exact fun h ↦ hput.symm.trans h
  · exact fun h ↦ hput.trans h

/-- Told to be big-endian on a little-endian host, a stream says that it is little-endian. -/
theorem network_not_described :
    ¬Describes .little .bigEndian false (Val.insertAll virtuals .little
      (ordered .little (List.replicate 8 0) 8 false [] .bigEndian) [.uint32 1, .float 2]).2
      [.uint32 1, .float 2] := by
  intro h
  have hr := h.reported
  revert hr
  decide

end MemBinStreamBuf
end CtrlrFx.Io
