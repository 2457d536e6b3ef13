import Mathlib.Algebra.Order.Ring.Nat
import Mathlib.Tactic.Ring

/-!
# Native words

Object representations of fixed-width integers on a host of either byte order, counting in
a 32-bit `int`, and the two conversions of C++ integers that lose information: narrowing to
a 32-bit `int` and a pointer difference read as a 64-bit `size_t`.
-/

namespace CtrlrFx.Base

/-- Byte order of a host. -/
inductive Endian where
  | little
  | big
  deriving DecidableEq, Repr

/-- The `n` low bytes of a number, least significant first. -/
def leBytes : Nat → Nat → List UInt8
  | 0, _ => []
  | n + 1, v => UInt8.ofNat (v % 256) :: leBytes n (v / 256)

/-- Number spelled by bytes, least significant first. -/
def leValue : List UInt8 → Nat
  | [] => 0
  | b :: bs => b.toNat + 256 * leValue bs

@[simp] theorem length_leBytes (n v : Nat) : (leBytes n v).length = n := by
  induction n generalizing v with
  | zero => rfl
  | succ n ih => simp [leBytes, ih]

/-- Reading back the bytes of a number that fits recovers it. -/
theorem leValue_leBytes (n v : Nat) (h : v < 256 ^ n) : leValue (leBytes n v) = v := by
  induction n generalizing v with
  | zero =>
    have hv : v = 0 := by simpa using h
    simp [leBytes, leValue, hv]
  | succ n ih =>
    have hd : v / 256 < 256 ^ n := by
      rw [Nat.div_lt_iff_lt_mul (by decide)]
      rwa [Nat.pow_succ] at h
    simp only [leBytes, leValue, ih _ hd, UInt8.toNat_ofNat']
    omega

namespace Endian

/-- Representation of a number in `n` bytes of a host. -/
def encode (e : Endian) (n v : Nat) : List UInt8 :=
  match e with
  | little => leBytes n v
  | big => (leBytes n v).reverse

/-- Number represented by bytes of a host. -/
def decode (e : Endian) (bs : List UInt8) : Nat :=
  match e with
  | little => leValue bs
  | big => leValue bs.reverse

@[simp] theorem length_encode (e : Endian) (n v : Nat) : (e.encode n v).length = n := by
  cases e <;> simp [encode]

/-- A number that fits survives its representation, on either host. -/
theorem decode_encode (e : Endian) (n v : Nat) (h : v < 256 ^ n) :
    e.decode (e.encode n v) = v := by
  cases e <;> simp [encode, decode, leValue_leBytes n v h]

/-- The other byte order. -/
def flip : Endian → Endian
  | little => big
  | big => little

/-- The representation of a number on one host is that on the other, backwards. -/
theorem encode_flip (e : Endian) (n v : Nat) : e.flip.encode n v = (e.encode n v).reverse := by
  cases e with
  | little => rfl
  | big =>
    rw [encode, List.reverse_reverse]
    rfl

end Endian

/-- A type whose values are copied as `size` bytes of memory. -/
class NativeRep (α : Type) where
  size : Nat
  bytes : Endian → α → List UInt8
  value : Endian → List UInt8 → α
  length_bytes : ∀ e v, (bytes e v).length = size
  value_bytes : ∀ e v, value e (bytes e v) = v

attribute [simp] NativeRep.length_bytes NativeRep.value_bytes

/-- An 8-bit word is its own byte. -/
instance : NativeRep UInt8 where
  size := 1
  bytes _ v := [v]
  value _ bs := bs.headD 0
  length_bytes _ _ := rfl
  value_bytes _ _ := rfl

instance : NativeRep UInt16 where
  size := 2
  bytes e v := e.encode 2 v.toNat
  value e bs := UInt16.ofNat (e.decode bs)
  length_bytes _ _ := Endian.length_encode _ _ _
  value_bytes e v := by rw [Endian.decode_encode e 2 _ v.toNat_lt, UInt16.ofNat_toNat]

instance : NativeRep UInt32 where
  size := 4
  bytes e v := e.encode 4 v.toNat
  value e bs := UInt32.ofNat (e.decode bs)
  length_bytes _ _ := Endian.length_encode _ _ _
  value_bytes e v := by rw [Endian.decode_encode e 4 _ v.toNat_lt, UInt32.ofNat_toNat]

instance : NativeRep UInt64 where
  size := 8
  bytes e v := e.encode 8 v.toNat
  value e bs := UInt64.ofNat (e.decode bs)
  length_bytes _ _ := Endian.length_encode _ _ _
  value_bytes e v := by rw [Endian.decode_encode e 8 _ v.toNat_lt, UInt64.ofNat_toNat]

/-- A signed 16-bit word has the bytes of the unsigned word with its bits. -/
instance : NativeRep Int16 where
  size := 2
  bytes e v := e.encode 2 v.toUInt16.toNat
  value e bs := (UInt16.ofNat (e.decode bs)).toInt16
  length_bytes _ _ := Endian.length_encode _ _ _
  value_bytes e v := by
    rw [Endian.decode_encode e 2 _ v.toUInt16.toNat_lt, UInt16.ofNat_toNat,
      Int16.toInt16_toUInt16]

/-- A signed 32-bit word has the bytes of the unsigned word with its bits. -/
instance : NativeRep Int32 where
  size := 4
  bytes e v := e.encode 4 v.toUInt32.toNat
  value e bs := (UInt32.ofNat (e.decode bs)).toInt32
  length_bytes _ _ := Endian.length_encode _ _ _
  value_bytes e v := by
    rw [Endian.decode_encode e 4 _ v.toUInt32.toNat_lt, UInt32.ofNat_toNat,
      Int32.toInt32_toUInt32]

/-- A truth value is one byte; any nonzero byte reads as true. -/
instance : NativeRep Bool where
  size := 1
  bytes _ v := [if v then 1 else 0]
  value _ bs := bs.headD 0 != 0
  length_bytes _ _ := rfl
  value_bytes _ v := by cases v <;> rfl

/-! ### Counting in a 32-bit `int` -/

theorem int32_pos_iff {n : Int32} : 0 < n ↔ 0 < n.toInt := by
  rw [Int32.lt_iff_toInt_lt, Int32.toInt_zero]

theorem int32_eq_zero_iff {n : Int32} : n = 0 ↔ n.toInt = 0 := by
  rw [← Int32.toInt_inj, Int32.toInt_zero]

/-- One more is counted where there is room for it. -/
theorem toInt_succ {n : Int32} (h : n.toInt + 1 < 2 ^ 31) : (n + 1).toInt = n.toInt + 1 := by
  have hl := n.le_toInt
  rw [Int32.toInt_add, Int32.toInt_one]
  exact Int.bmod_eq_of_le (by omega) (by omega)

theorem toInt_pred {n : Int32} (h : -2 ^ 31 < n.toInt) : (n - 1).toInt = n.toInt - 1 := by
  have hl := n.toInt_lt
  rw [Int32.toInt_sub, Int32.toInt_one]
  exact Int.bmod_eq_of_le (by omega) (by omega)

/-- Counting up from 0 does not come back to 0 in one step. -/
theorem succ_ne_zero_of_nonneg {n : Int32} (h : 0 ≤ n.toInt) : n + 1 ≠ 0 := by
  have hu := n.toInt_lt
  rw [Ne, int32_eq_zero_iff, Int32.toInt_add, Int32.toInt_one, Int.bmod_def]
  omega

theorem int32_ofNat_succ (n : Nat) : Int32.ofNat (n + 1) = Int32.ofNat n + 1 :=
  Int32.ofNat_add n 1

/-! ### Conversions that lose information -/

/-- Conversion of an integer to a 32-bit `int`. -/
def toInt32 (z : Int) : Int :=
  if z % 2 ^ 32 < 2 ^ 31 then z % 2 ^ 32 else z % 2 ^ 32 - 2 ^ 32

/-- Conversion of an integer to a 64-bit `size_t`. -/
def toSize (z : Int) : Nat := (z % 2 ^ 64).toNat

/-- Distance from pointer `lo` up to `hi` as a 64-bit `size_t`. -/
def ptrDiff (hi lo : Nat) : Nat := if lo ≤ hi then hi - lo else 2 ^ 64 - (lo - hi)

theorem ptrDiff_of_le {hi lo : Nat} (h : lo ≤ hi) : ptrDiff hi lo = hi - lo := if_pos h

theorem toInt32_of_lt (z : Int) (hl : -2 ^ 31 ≤ z) (hu : z < 2 ^ 31) : toInt32 z = z := by
  unfold toInt32
  split <;> omega

theorem neg_le_toInt32 (z : Int) : -2 ^ 31 ≤ toInt32 z := by
  unfold toInt32
  split <;> omega

theorem toInt32_lt (z : Int) : toInt32 z < 2 ^ 31 := by
  unfold toInt32
  split <;> omega

theorem toInt32_one : toInt32 (1 : Nat) = 1 := toInt32_of_lt 1 (by decide) (by decide)

theorem toSize_of_lt (z : Int) (hl : 0 ≤ z) (hu : z < 2 ^ 64) : (toSize z : Int) = z := by
  unfold toSize
  omega

/-- A negative number becomes one near the top of the range. -/
theorem toSize_of_neg (z : Int) (hl : -2 ^ 64 ≤ z) (hu : z < 0) :
    (toSize z : Int) = 2 ^ 64 + z := by
  unfold toSize
  omega

/-- A byte survives being an `int`. -/
theorem byteOf_toNat (x : UInt8) : UInt8.ofInt (x.toNat : Int) = x := by
  have h := x.toNat_lt
  have hm : ((x.toNat : Int) % 2 ^ 8).toNat = x.toNat := by omega
  rw [UInt8.ofInt, hm, UInt8.ofNat_toNat]

end CtrlrFx.Base
