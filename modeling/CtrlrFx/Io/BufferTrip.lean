import CtrlrFx.Data.Buffer
import CtrlrFx.Io.MemBinStream

/-!
# Buffers in a stream

`src/io/BinStream/BinStream.cpp`: a byte buffer is inserted as its size, narrowed to 16 bits, and
its bytes. An extraction stores as many bytes as the stream says at the begin of a buffer, and
sets its limit behind them, without a look at its capacity.
-/

namespace CtrlrFx.Io
open Base Data

namespace BinStream

variable {δ : Type} (v : Overrides δ) (e : Endian)

/-- `src/io/BinStream/BinStream.cpp:112–116`. -/
def insertBuffer (s : BinStream δ) (b : Buffer UInt8) : BinStream δ :=
  (s.insert v e (UInt16.ofNat b.size)).write v (b.mem.take b.size)

/-- What an extraction into a buffer leaves. -/
structure Extracted (δ : Type) where
  buffer : Buffer UInt8
  /-- A byte was stored behind the memory of the buffer. -/
  outside : Bool
  stream : BinStream δ

/-- Into a variable for the length that holds `junk`; `src/io/BinStream/BinStream.cpp:36–45`. -/
def extractBuffer (s : BinStream δ) (c : Buffer UInt8) (junk : UInt16) : Extracted δ :=
  let r := s.extract v e junk
  let g := r.2.getBlock v r.1.toNat
  { buffer := ({ c with mem := Block.write c.mem 0 g.1 } : Buffer UInt8).setSize r.1.toNat
    outside := decide (c.capacity < g.1.length)
    stream := g.2 }

end BinStream

namespace MemBinStreamBuf

/-! ### Short of room -/

section Put

variable {n : Nat} {b : BinStreamBuf Unit} {acc : List UInt8}

theorem Put.sputc_nonneg_iff (h : Put n b acc) (x : UInt8) :
    0 ≤ (b.sputc virtuals x).1 ↔ acc.length < n := by
  rw [← h.hasPut_iff]
  by_cases hp : b.hasPut
  · rw [BinStreamBuf.sputc_of_hasPut hp]
    exact iff_of_true (Int.natCast_nonneg _) hp
  · rw [BinStreamBuf.sputc_of_not hp, overflow_virtuals]
    exact iff_of_false (show ¬(0 : Int) ≤ -1 by decide) hp

/-- Bytes are put as far as there is room. -/
theorem Put.putEach (h : Put n b acc) (bs : List UInt8) :
    (BinStreamBuf.putEach virtuals bs b).1 = min bs.length (n - acc.length) ∧
      Put n (BinStreamBuf.putEach virtuals bs b).2 (acc ++ bs.take (n - acc.length)) := by
  have hcount : (BinStreamBuf.putEach virtuals bs b).1 = min bs.length (n - acc.length) := by
    induction bs generalizing b acc with
    | nil => exact (Nat.zero_min _).symm
    | cons x xs ih =>
      have hx := h.sputc_nonneg_iff x
      rw [BinStreamBuf.putEach, List.length_cons]
      dsimp only
      split
      · omega
      · next hc =>
        have hi := ih ((put_law n).kept x h (by omega))
        rw [List.length_append, List.length_singleton] at hi
        rw [hi]
        omega
  have hk := (put_law n).putEach h bs
  rw [hcount, Nat.min_comm, ← List.take_eq_take_min] at hk
  exact ⟨hcount, hk⟩

/-- Zero bytes are put as far as there is room. -/
theorem Put.putZeros (h : Put n b acc) (k : Nat) :
    Put n (BinStreamBuf.putZeros virtuals k b)
      (acc ++ List.replicate (min k (n - acc.length)) 0) := by
  induction k generalizing b acc with
  | zero =>
    rw [Nat.zero_min, List.replicate_zero, List.append_nil]
    exact h
  | succ k ih =>
    have hx := h.sputc_nonneg_iff 0
    rw [BinStreamBuf.putZeros]
    by_cases hlt : acc.length < n
    · have hi := ih ((put_law n).kept 0 h (hx.mpr hlt))
      have hm : min (k + 1) (n - acc.length) = min k (n - (acc.length + 1)) + 1 := by omega
      rw [List.append_assoc, List.singleton_append, List.length_append, List.length_singleton]
        at hi
      rwa [hm, List.replicate_succ]
    · have hi := ih ((put_law n).refused 0 h (by omega))
      have hz : n - acc.length = 0 := by omega
      rw [hz, Nat.min_zero] at hi ⊢
      exact hi

/-- So is a block, if the room is one that an `int` can say. -/
theorem Put.xsputn (h : Put n b acc) (bs : List UInt8)
    (hr : n - acc.length < 2 ^ 31 ∨ bs.length < 2 ^ 31) :
    (b.xsputn virtuals bs).1 = min bs.length (n - acc.length) ∧
      Put n (b.xsputn virtuals bs).2 (acc ++ bs.take (n - acc.length)) := by
  suffices heq : b.xsputn virtuals bs = BinStreamBuf.putEach virtuals bs b by
    rw [heq]
    exact h.putEach bs
  rcases hr with hr | hr
  · apply @BinStreamBuf.xsputn_eq_putEach Unit virtuals
      fun _ b ↦ ∃ acc, Put n b acc ∧ n - acc.length < 2 ^ 31
    · rintro k b ⟨acc, hk, hlt⟩
      rw [hk.pptr_eq.2.1, hk.pptr_eq.2.2]
      omega
    · rintro k b x ⟨acc, hk, hlt⟩
      by_cases hc : 0 ≤ (b.sputc virtuals x).1
      · refine ⟨acc ++ [x], (put_law n).kept x hk hc, ?_⟩
        rw [List.length_append]
        omega
      · exact ⟨acc, (put_law n).refused x hk (by omega), hlt⟩
    · exact ⟨acc, h, hr⟩
  · exact BinStream.xsputn_short hr

/-- Where there is more room than an `int` can say, the position is moved to the begin of the
memory or in front of it, so that room is never short. -/
theorem xsputn_of_room {q : Nat} (hp : b.put = some { beg := 0, next := q, fin := n })
    (hn : n < 2 ^ 32) (hr : 2 ^ 31 ≤ n - q) (bs : List UInt8) :
    (b.xsputn virtuals bs).1 = bs.length := by
  obtain ⟨k, hk⟩ : ∃ k, bs.length ≤ k := ⟨_, Nat.le_refl _⟩
  induction k generalizing b q bs with
  | zero =>
    rw [List.eq_nil_of_length_eq_zero (Nat.le_zero.mp hk)]
    rfl
  | succ k ih =>
    by_cases h0 : bs.length = 0
    · rw [List.eq_nil_of_length_eq_zero h0]
      rfl
    · have hq : b.pptr = q := by rw [BinStreamBuf.pptr, hp]; rfl
      have he : b.epptr = n := by rw [BinStreamBuf.epptr, hp]; rfl
      have hput : b.hasPut := by
        rw [BinStreamBuf.hasPut_iff]
        omega
      rw [BinStreamBuf.xsputn_of_hasPut hput (by omega) rfl]
      dsimp only
      by_cases hle : bs.length ≤ n - q
      · have hs : min bs.length (b.epptr - b.pptr) = bs.length := by omega
        rw [hs, List.drop_length]
        rfl
      · have hs : min bs.length (b.epptr - b.pptr) = n - q := by omega
        have hlen : (bs.take (n - q)).length = n - q := by
          rw [List.length_take]
          omega
        have hi : toInt32 (n - q : Nat) = (n - q : Nat) - 2 ^ 32 := by
          rw [toInt32]
          omega
        have hwrap : (b.copyIn (bs.take (n - q))).put = some { beg := 0, next := 0, fin := n } := by
          have hz : ((q : Int) + ((n - q : Nat) - 2 ^ 32)).toNat = 0 := by omega
          simp only [BinStreamBuf.copyIn, BinStreamBuf.pbump, hp, hlen, hi, Option.map_some, hz]
        rw [hs, ih hwrap (by omega) _ (by rw [List.length_drop]; omega), List.length_drop]
        omega

/-- A block leaves the memory as long as it was. -/
theorem length_mem_xsputn (b : BinStreamBuf Unit) (bs : List UInt8) :
    (b.xsputn virtuals bs).2.mem.length = b.mem.length := by
  obtain ⟨k, hk⟩ : ∃ k, bs.length ≤ k := ⟨_, Nat.le_refl _⟩
  rw [← BinStreamBuf.xsputnLoop_rounds hk]
  clear hk
  induction k generalizing b bs with
  | zero => rfl
  | succ k ih =>
    cases bs with
    | nil => rfl
    | cons x xs =>
      rw [BinStreamBuf.xsputnLoop]
      split
      · dsimp only
        rw [ih, BinStreamBuf.mem_copyIn, Block.length_write]
      · rw [overflow_virtuals, if_pos (show (-1 : Int) < 0 by decide)]

end Put

/-! ### At the end of the content -/

section Get

variable {mem : List UInt8} {n p : Nat} {b : BinStreamBuf Unit}

/-- At the end no byte is got, and the position stays. -/
theorem Get.sbumpc_of_end (h : Get mem n b p) (hp : n ≤ p) : b.sbumpc virtuals = (-1, b) := by
  have hg : ¬b.hasGet := by
    rw [BinStreamBuf.hasGet_iff, h.gptr_eq.2.1, h.gptr_eq.2.2]
    omega
  rw [BinStreamBuf.sbumpc_of_not hg]
  rfl

/-- Bytes are got as far as there are any. -/
theorem Get.getEach (h : Get mem n b p) (hn : n ≤ mem.length) (hp : p ≤ n) (k : Nat) :
    (BinStreamBuf.getEach virtuals k b).1 = Block.read (mem.take n) p k ∧
      Get mem n (BinStreamBuf.getEach virtuals k b).2 (min (p + k) n) := by
  have hlen : (mem.take n).length = n := List.length_take_of_le hn
  induction k generalizing b p with
  | zero =>
    rw [Nat.add_zero, Nat.min_eq_left hp]
    exact ⟨(Block.read_zero _ _).symm, h⟩
  | succ k ih =>
    by_cases hlt : p < n
    · rcases (get_law hn).got h (by omega) with ⟨hc, hk⟩
      have h0 : ¬(((mem.take n)[p].toNat : Int) < 0) := by omega
      rcases ih hk (by omega) with ⟨hr, hg⟩
      rw [BinStreamBuf.getEach]
      simp only [hc, if_neg h0, Int.toNat_natCast, UInt8.ofNat_toNat]
      rw [Block.read_succ _ _ _ (by omega), hr]
      constructor
      · rfl
      · rwa [← Nat.add_assoc, Nat.add_right_comm]
    · rw [BinStreamBuf.getEach, h.sbumpc_of_end (by omega)]
      dsimp only
      rw [if_pos (by decide), Nat.min_eq_right (by omega)]
      constructor
      · rw [Block.read, List.drop_eq_nil_of_le (by omega), List.take_nil]
      · have hpn : p = n := by omega
        rw [hpn] at h
        exact h

/-- So is padding. -/
theorem Get.skip (h : Get mem n b p) (hn : n ≤ mem.length) (hp : p ≤ n) (k : Nat) :
    Get mem n (BinStreamBuf.skip virtuals k b) (min (p + k) n) := by
  have hlen : (mem.take n).length = n := List.length_take_of_le hn
  induction k generalizing b p with
  | zero =>
    rw [Nat.add_zero, Nat.min_eq_left hp]
    exact h
  | succ k ih =>
    rw [BinStreamBuf.skip]
    by_cases hlt : p < n
    · have hk := ih ((get_law hn).got h (by omega)).2 (by omega)
      rwa [← Nat.add_assoc, Nat.add_right_comm]
    · have hk := ih h hp
      rw [h.sbumpc_of_end (by omega)]
      rw [Nat.min_eq_right (by omega)] at hk ⊢
      exact hk

end Get

/-! ### The length -/

/-- Where the length of a buffer goes, from position `p`. -/
def place (align : Bool) (p : Nat) : Nat := roundUp (if align then 2 else 1) p

/-- The length that a content has behind position `p`, of which the bytes that it does not have
are those of `junk`. -/
def lengthAhead (e : Endian) (swap align : Bool) (content : List UInt8) (p : Nat)
    (junk : UInt16) : UInt16 :=
  let bs := Block.read content (place align p) 2
  NativeRep.value e (BinStream.swapBytes swap (bs ++ (NativeRep.bytes e junk).drop bs.length))

theorem le_place (align : Bool) (p : Nat) : p ≤ place align p := by
  cases align <;> exact le_roundUp p (by decide)

theorem place_false (p : Nat) : place false p = p := roundUp_of_dvd Nat.one_pos (Nat.one_dvd p)

/-- A multiple is reached by the padding of an area that begins at one. -/
theorem padding_eq_place {beg next p : Nat} (hb : beg ≤ next) (hp : p = 0 + (next - beg)) :
    BinStreamBuf.padding beg next 2 = place true p - p :=
  Val.padding_origin (by decide) hb hp (Nat.dvd_zero 2)

/-- What has been put when a length has been inserted behind `acc`. -/
def withLength (e : Endian) (swap align : Bool) (acc : List UInt8) (x : UInt16) : List UInt8 :=
  acc ++ (List.replicate (place align acc.length - acc.length) 0 ++
    BinStream.swapBytes swap (NativeRep.bytes e x))

theorem length_swapped (e : Endian) (swap : Bool) (x : UInt16) :
    (BinStream.swapBytes swap (NativeRep.bytes e x)).length = 2 := by
  rw [BinStream.length_swapBytes, NativeRep.length_bytes]
  rfl

@[simp] theorem length_withLength (e : Endian) (swap align : Bool) (acc : List UInt8)
    (x : UInt16) : (withLength e swap align acc x).length = place align acc.length + 2 := by
  have hle := le_place align acc.length
  rw [withLength, List.length_append, List.length_append, List.length_replicate, length_swapped]
  omega

/-- A length that was inserted lies ahead. -/
theorem lengthAhead_of_prefix {e : Endian} {swap align : Bool} {acc content : List UInt8}
    {x : UInt16} (h : withLength e swap align acc x <+: content) (junk : UInt16) :
    lengthAhead e swap align content acc.length junk = x := by
  have hle := le_place align acc.length
  rcases h with ⟨zs, rfl⟩
  have hread : Block.read (withLength e swap align acc x ++ zs) (place align acc.length) 2 =
      BinStream.swapBytes swap (NativeRep.bytes e x) := by
    rw [Block.read, withLength, ← List.append_assoc acc, List.append_assoc, List.drop_left',
      List.take_left' (length_swapped e swap x)]
    rw [List.length_append, List.length_replicate]
    omega
  have hdrop : (NativeRep.bytes e junk).drop 2 = [] :=
    List.drop_eq_nil_of_le (NativeRep.length_bytes e junk).le
  rw [lengthAhead, hread, length_swapped, hdrop, List.append_nil, BinStream.swapBytes_swapBytes,
    NativeRep.value_bytes]

section Extract

variable {mem : List UInt8} {n p : Nat} {s : BinStream Unit}

theorem Get.getBlock (h : Get mem n s.buf p) (hn : n ≤ mem.length) (hp : p ≤ n) {k : Nat}
    (hk : k < 2 ^ 31) :
    (s.getBlock virtuals k).1 = Block.read (mem.take n) p k ∧
      Get mem n (s.getBlock virtuals k).2.buf (min (p + k) n) ∧
      ((s.getBlock virtuals k).2.good ↔ p + k ≤ n) := by
  rcases h.getEach hn hp k with ⟨hr, hg⟩
  have hlen : (Block.read (mem.take n) p k).length = min k (n - p) := by
    rw [Block.length_read_min, List.length_take_of_le hn]
  simp only [BinStream.getBlock, BinStream.xsgetn_short hk, hr, BinStream.good]
  refine ⟨trivial, hg, ?_⟩
  rw [BinStream.good_ite (by decide), hlen]
  omega

/-- Whatever the content is, a length is what lies ahead in it. -/
theorem Get.extract (h : Get mem n s.buf p) (hn : n ≤ mem.length) (hp : p ≤ n) (e : Endian)
    (junk : UInt16) :
    (s.extract virtuals e junk).1 =
        lengthAhead e s.swap s.align (mem.take n) p junk ∧
      Get mem n (s.extract virtuals e junk).2.buf (min (place s.align p + 2) n) := by
  have hle := le_place s.align p
  have hlen : (mem.take n).length = n := List.length_take_of_le hn
  have hstep : ∀ t : BinStream Unit, t.swap = s.swap →
      Get mem n t.buf (min (place s.align p) n) →
      NativeRep.value e (BinStream.swapBytes t.swap ((t.getBlock virtuals 2).1 ++
        (NativeRep.bytes e junk).drop (t.getBlock virtuals 2).1.length)) =
          lengthAhead e s.swap s.align (mem.take n) p junk ∧
      Get mem n (t.getBlock virtuals 2).2.buf (min (place s.align p + 2) n) := by
    intro t ht hk
    have hget := @Get.getBlock _ _ _ _ hk hn (Nat.min_le_right _ _) 2 (by decide)
    rcases hget with ⟨hr, hg, -⟩
    have hread := Block.read_min (mem.take n) (place s.align p) 2
    rw [hlen] at hread
    have hmin : min (min (place s.align p) n + 2) n = min (place s.align p + 2) n := by omega
    rw [hr, hread, ht]
    rw [hmin] at hg
    exact ⟨rfl, hg⟩
  rw [BinStream.extract]
  split
  · next ha =>
    apply hstep
    · rfl
    · have hpad := padding_eq_place (get_origin _ _ h).1 (get_origin _ _ h).2
      have hbuf : s.buf.galign virtuals 2 =
          BinStreamBuf.skip virtuals (place s.align p - p) s.buf := by
        rw [BinStreamBuf.galign, hpad, ha]
      have hk := h.skip hn hp (place s.align p - p)
      rw [Nat.add_sub_cancel' hle, ← hbuf] at hk
      exact hk
  · next ha =>
    apply hstep
    · rfl
    · rw [Bool.eq_false_iff.mpr ha, place_false, Nat.min_eq_left hp]
      exact h

/-- What an extraction stores, says and does to the limit, for any content. -/
theorem Get.extractBuffer (h : Get mem n s.buf p) (hn : n ≤ mem.length) (hp : p ≤ n) (e : Endian)
    (c : Buffer UInt8) (junk : UInt16) :
    let len := (lengthAhead e s.swap s.align (mem.take n) p junk).toNat
    let got := Block.read (mem.take n) (place s.align p + 2) len
    let r := s.extractBuffer virtuals e c junk
    r.buffer.size = len ∧ r.buffer.capacity = c.capacity ∧
      r.buffer.mem = Block.write c.mem 0 got ∧ r.outside = decide (c.capacity < got.length) ∧
      (r.stream.good ↔ min (place s.align p + 2) n + len ≤ n) := by
  intro len got r
  rcases h.extract hn hp e junk with ⟨hv, hg⟩
  have hlt := (lengthAhead e s.swap s.align (mem.take n) p junk).toNat_lt
  have hk : (s.extract virtuals e junk).1.toNat = len := congrArg UInt16.toNat hv
  have hget := @Get.getBlock _ _ _ _ hg hn (Nat.min_le_right _ _) len (by omega)
  rcases hget with ⟨hr, -, hgood⟩
  have hread := Block.read_min (mem.take n) (place s.align p + 2) len
  rw [List.length_take_of_le hn] at hread
  rw [hread] at hr
  refine ⟨hk, ?_, ?_, ?_, ?_⟩
  · exact Block.length_write _ _ _
  · show Block.write c.mem 0 ((s.extract virtuals e junk).2.getBlock virtuals _).1 = _
    rw [hk, hr]
  · show decide (c.capacity < ((s.extract virtuals e junk).2.getBlock virtuals _).1.length) = _
    rw [hk, hr]
  · show ((s.extract virtuals e junk).2.getBlock virtuals _).2.good ↔ _
    rw [hk]
    exact hgood

end Extract

section Insert

variable {n : Nat} {s : BinStream Unit} {acc : List UInt8}

theorem Put.write (h : Put n s.buf acc) {bs : List UInt8}
    (hr : n - acc.length < 2 ^ 31 ∨ bs.length < 2 ^ 31) :
    ((s.write virtuals bs).good ↔ bs.length ≤ n - acc.length) ∧
      Put n (s.write virtuals bs).buf (acc ++ bs.take (n - acc.length)) := by
  rcases h.xsputn bs hr with ⟨hc, hk⟩
  refine ⟨?_, hk⟩
  rw [BinStream.write_good_iff, hc]
  omega

/-- Behind padding a word of two bytes is written, where there is room for both; else the memory
is full. -/
theorem Put.write_padded {k : Nat} {bs : List UInt8} (h2 : bs.length = 2)
    (h : Put n s.buf (acc ++ List.replicate (min k (n - acc.length)) 0)) :
    if acc.length + k + 2 ≤ n then
      (s.write virtuals bs).good ∧
        Put n (s.write virtuals bs).buf (acc ++ (List.replicate k 0 ++ bs))
    else ∃ acc', acc'.length = n ∧ Put n (s.write virtuals bs).buf acc' := by
  have hle := h.length_le
  rcases @Put.write n s _ h bs (.inr (by omega)) with ⟨hg, hk⟩
  rw [List.length_append, List.length_replicate] at hle hg hk
  split
  · next hroom =>
    have hm : min k (n - acc.length) = k := by omega
    rw [hm] at hg hk
    rw [List.take_of_length_le (by omega), List.append_assoc] at hk
    exact ⟨hg.mpr (by omega), hk⟩
  · refine ⟨_, ?_, hk⟩
    rw [List.length_append, List.length_append, List.length_replicate, List.length_take]
    omega

/-- A length that there is room for is inserted behind its padding; else the memory is full. -/
theorem Put.insert (h : Put n s.buf acc) (e : Endian) (x : UInt16) :
    if place s.align acc.length + 2 ≤ n then
      (s.insert virtuals e x).good ∧
        Put n (s.insert virtuals e x).buf (withLength e s.swap s.align acc x)
    else ∃ acc', acc'.length = n ∧ Put n (s.insert virtuals e x).buf acc' := by
  have hle := le_place s.align acc.length
  have hlen := length_swapped e s.swap x
  have hsum : acc.length + (place s.align acc.length - acc.length) = place s.align acc.length :=
    Nat.add_sub_cancel' hle
  rw [BinStream.insert]
  by_cases ha : s.align = true
  · have hk := h.putZeros (place s.align acc.length - acc.length)
    have hbuf : s.buf.palign virtuals 2 = BinStreamBuf.putZeros virtuals
        (place s.align acc.length - acc.length) s.buf := by
      rw [BinStreamBuf.palign, padding_eq_place (put_origin _ _ h).1 (put_origin _ _ h).2, ha]
    rw [← hbuf] at hk
    rw [if_pos ha]
    have hw := @Put.write_padded n { s with buf := s.buf.palign virtuals 2 } acc _ _ hlen hk
    rw [hsum] at hw
    exact hw
  · have hz : place s.align acc.length = acc.length := by
      rw [Bool.eq_false_iff.mpr ha, place_false]
    have hk : Put n s.buf (acc ++ List.replicate (min 0 (n - acc.length)) 0) := by
      rwa [Nat.zero_min, List.replicate_zero, List.append_nil]
    have hw := @Put.write_padded n s acc 0 _ hlen hk
    rw [if_neg ha, withLength, hz, Nat.sub_self]
    exact hw

end Insert

/-! ### There and back -/

/-- After the insertion of `b` and the extraction of `c` one of the two operations reports failure
and nothing was stored outside of `c`, or what was inserted is in `c`. -/
def Survives (e : Endian) (os is : BinStream Unit) (b c : Buffer UInt8) (junk : UInt16) : Prop :=
  let o := os.insertBuffer virtuals e b
  let r := is.extractBuffer virtuals e c junk
  ¬(o.good ∧ r.stream.good) ∧ r.outside = false ∨
    r.buffer.size = b.size ∧ r.buffer.mem.take b.size = b.mem.take b.size

/-- An extraction stores nothing outside of the buffer, and leaves its limit inside. -/
def StaysInside (e : Endian) (is : BinStream Unit) (c : Buffer UInt8) (junk : UInt16) : Prop :=
  let r := is.extractBuffer virtuals e c junk
  r.outside = false ∧ r.buffer.size ≤ r.buffer.capacity

/-- When a buffer survives, for `m` bytes from position `p` of a memory of `n` bytes, and a
capacity of `cap`: there is no room for the length, or room for all of the bytes and these are not
too many for the length and for the capacity, or the insertion fails for want of room and what is
left of the length keeps inside. -/
def BufferFits (align : Bool) (n p m cap : Nat) : Prop :=
  let q := place align p + 2
  n < q ∨ (m ≤ n - q ∧ m < 2 ^ 16 ∧ m ≤ cap) ∨
    (n - q < m ∧ n - q < 2 ^ 31 ∧ min (m % 2 ^ 16) (n - q) ≤ cap)

section Trip

variable {n : Nat} {e : Endian} {os is : BinStream Unit} {acc : List UInt8} {b c : Buffer UInt8}

/-- Without room for the length nothing is stored. -/
theorem survives_of_lt (h : Put n os.buf acc) (hb : b.size ≤ b.capacity)
    (hg : Get (os.insertBuffer virtuals e b).buf.mem n is.buf acc.length)
    (hal : is.align = os.align) (hlt : n < place os.align acc.length + 2) (junk : UInt16) :
    Survives e os is b c junk := by
  have hins := h.insert e (UInt16.ofNat b.size)
  rw [if_neg (by omega)] at hins
  rcases hins with ⟨acc', hlen, hput⟩
  rcases @Put.write n _ _ hput (b.mem.take b.size) (.inl (by omega)) with ⟨hgood, hk⟩
  have hroom : n ≤ (os.insertBuffer virtuals e b).buf.mem.length := hk.room
  rcases hg.extractBuffer hroom h.length_le e c junk with ⟨hsize, -, -, hout, hread⟩
  rw [hal] at hsize hout hread
  have hnil (k : Nat) : Block.read ((os.insertBuffer virtuals e b).buf.mem.take n)
      (place os.align acc.length + 2) k = [] := by
    rw [Block.read, List.drop_eq_nil_of_le (by rw [List.length_take]; omega), List.take_nil]
  rw [hnil, List.length_nil, decide_eq_false (Nat.not_lt_zero _)] at hout
  rw [List.length_take_of_le hb] at hgood
  by_cases hboth : (os.insertBuffer virtuals e b).good ∧
      (is.extractBuffer virtuals e c junk).stream.good
  · right
    have h0 : b.size = 0 := by
      have hle := hgood.mp hboth.1
      omega
    have hl := hread.mp hboth.2
    rw [h0]
    exact ⟨hsize.trans (by omega), rfl⟩
  · exact .inl ⟨hboth, hout⟩

/-- With more room than an `int` can say, everything is put and whatever length lies ahead is
got: a buffer of as many bytes is not extracted. -/
theorem not_survives_of_huge (hn : n < 2 ^ 32) (h : Put n os.buf acc)
    (hg : Get (os.insertBuffer virtuals e b).buf.mem n is.buf acc.length)
    (hal : is.align = os.align) (hr : 2 ^ 31 ≤ n - (place os.align acc.length + 2))
    (hm : 2 ^ 31 ≤ b.size) (junk : UInt16) : ¬Survives e os is b c junk := by
  have hins := h.insert e (UInt16.ofNat b.size)
  rw [if_pos (by omega)] at hins
  have hput := hins.2
  have hpos := hput.put_eq
  rw [length_withLength] at hpos
  have hcount := xsputn_of_room hpos hn hr (b.mem.take b.size)
  have hgood : (os.insertBuffer virtuals e b).good := BinStream.write_good_iff.mpr hcount.ge
  have hroom : n ≤ (os.insertBuffer virtuals e b).buf.mem.length := by
    rw [BinStream.insertBuffer, BinStream.write, length_mem_xsputn]
    exact hput.room
  rcases hg.extractBuffer hroom h.length_le e c junk with ⟨hsize, -, -, -, hread⟩
  have hlt := (lengthAhead e is.swap is.align
    ((os.insertBuffer virtuals e b).buf.mem.take n) acc.length junk).toNat_lt
  rw [hal] at hsize hread hlt
  rintro (⟨hnot, -⟩ | ⟨hs, -⟩)
  · exact hnot ⟨hgood, hread.mpr (by omega)⟩
  · have heq := hsize.symm.trans hs
    omega

/-- What is read behind a prefix of a content, of which nothing is left where it is short. -/
theorem read_behind {content xs ys : List UInt8} {r k : Nat}
    (h : xs ++ ys.take r <+: content) (hlen : content.length = xs.length + r)
    (hk : k ≤ ys.length) : Block.read content xs.length k = ys.take (min k r) := by
  rcases h with ⟨zs, rfl⟩
  rw [List.length_append, List.length_append, List.length_take] at hlen
  rw [Block.read, List.append_assoc, List.drop_left, List.take_append, List.take_take,
    List.length_take]
  have hz : zs.take (k - min r ys.length) = [] := by
    rcases Nat.le_total k r with hkr | hkr
    · have h0 : k - min r ys.length = 0 := by omega
      rw [h0, List.take_zero]
    · have h0 : zs.length = 0 := by omega
      rw [List.eq_nil_of_length_eq_zero h0, List.take_nil]
  rw [hz, List.append_nil]

/-- A copy to the begin of a block is there in full exactly if it is not longer than the block. -/
theorem take_write_eq_iff {mem xs : List UInt8} {m : Nat} (hx : xs.length = m) :
    (Block.write mem 0 (xs.take m)).take m = xs ↔ m ≤ mem.length := by
  rw [List.take_of_length_le hx.le]
  constructor
  · intro h
    have hl := congrArg List.length h
    rw [List.length_take, Block.length_write] at hl
    omega
  · intro h
    rw [← hx] at h ⊢
    exact Block.read_write mem 0 xs (by omega)

/-- What both operations say and what is in `c` behind them, where the block is put as far as there
is room. -/
theorem there_and_back (h : Put n os.buf acc) (hb : b.size ≤ b.capacity)
    (hg : Get (os.insertBuffer virtuals e b).buf.mem n is.buf acc.length)
    (hsw : is.swap = os.swap) (hal : is.align = os.align)
    (hq : place os.align acc.length + 2 ≤ n) {room : Nat}
    (hroom : n - (place os.align acc.length + 2) = room)
    (hr : room < 2 ^ 31 ∨ b.size < 2 ^ 31) (junk : UInt16) :
    let r := is.extractBuffer virtuals e c junk
    ((os.insertBuffer virtuals e b).good ↔ b.size ≤ room) ∧
      r.buffer.size = b.size % 2 ^ 16 ∧
      r.buffer.mem =
        Block.write c.mem 0 ((b.mem.take b.size).take (min (b.size % 2 ^ 16) room)) ∧
      r.outside = decide (c.capacity < min (b.size % 2 ^ 16) room) ∧
      (r.stream.good ↔ b.size % 2 ^ 16 ≤ room) := by
  have hins := h.insert e (UInt16.ofNat b.size)
  rw [if_pos hq] at hins
  have hdata : (b.mem.take b.size).length = b.size := List.length_take_of_le hb
  have hmod := Nat.mod_le b.size (2 ^ 16)
  have hw := @Put.write n _ _ hins.2 (b.mem.take b.size) (by rwa [length_withLength, hdata, hroom])
  rcases hw with ⟨hgood, hk⟩
  rw [length_withLength, hroom] at hgood hk
  rw [hdata] at hgood
  have hle : n ≤ (os.insertBuffer virtuals e b).buf.mem.length := hk.room
  have hpre : withLength e os.swap os.align acc (UInt16.ofNat b.size) ++
      (b.mem.take b.size).take room <+: (os.insertBuffer virtuals e b).buf.mem.take n := by
    apply List.prefix_take_iff.mpr
    constructor
    · exact hk.mem ▸ List.take_prefix _ _
    · exact hk.length_le
  have hlen : (UInt16.ofNat b.size).toNat = b.size % 2 ^ 16 := rfl
  have hgot := @read_behind _ _ _ _ (b.size % 2 ^ 16) hpre
    (by rw [List.length_take_of_le hle, length_withLength]; omega) (by rwa [hdata])
  rw [length_withLength] at hgot
  rcases hg.extractBuffer hle h.length_le e c junk with ⟨hsize, -, hmem, hout, hread⟩
  have hahead : lengthAhead e is.swap is.align
      ((os.insertBuffer virtuals e b).buf.mem.take n) acc.length junk = UInt16.ofNat b.size := by
    rw [hsw, hal]
    exact lengthAhead_of_prefix ((List.prefix_append _ _).trans hpre) junk
  rw [hahead, hlen] at hsize
  rw [hahead, hlen, hal, hgot] at hmem
  rw [hahead, hlen, hal, hgot, List.length_take, hdata] at hout
  rw [hahead, hlen, hal] at hread
  refine ⟨hgood, hsize, hmem, ?_, ?_⟩
  · have hmin : min (min (b.size % 2 ^ 16) room) b.size = min (b.size % 2 ^ 16) room := by omega
    rw [hout, hmin]
  · rw [hread]
    omega

/-- Then the conditions are those on the room. -/
theorem survives_iff_of_short (h : Put n os.buf acc) (hb : b.size ≤ b.capacity)
    (hg : Get (os.insertBuffer virtuals e b).buf.mem n is.buf acc.length)
    (hsw : is.swap = os.swap) (hal : is.align = os.align)
    (hq : place os.align acc.length + 2 ≤ n)
    (hr : n - (place os.align acc.length + 2) < 2 ^ 31 ∨ b.size < 2 ^ 31) (junk : UInt16) :
    Survives e os is b c junk ↔ BufferFits os.align n acc.length b.size c.capacity := by
  obtain ⟨room, hroom⟩ : ∃ room, n - (place os.align acc.length + 2) = room := ⟨_, rfl⟩
  rw [hroom] at hr
  have hdata : (b.mem.take b.size).length = b.size := List.length_take_of_le hb
  have hmod := Nat.mod_le b.size (2 ^ 16)
  rcases @there_and_back _ _ _ _ _ _ c h hb hg hsw hal hq _ hroom hr junk with
    ⟨ho, hsize, hmem, hout, hread⟩
  rw [Survives, BufferFits, ho, hsize, hmem, hout, hread, hroom]
  rcases Nat.lt_or_ge room b.size with hshort | henough
  · constructor
    · rintro (⟨-, hin⟩ | ⟨-, ht⟩)
      · have hcap := of_decide_eq_false hin
        omega
      · have hl := congrArg List.length ht
        rw [List.length_take, Block.length_write, hdata] at hl
        have hcap : b.size ≤ c.capacity := by
          rw [Buffer.capacity]
          omega
        omega
    · rintro (hno | ⟨hle, -⟩ | ⟨-, -, hcap⟩)
      · omega
      · omega
      · exact .inl ⟨by omega, decide_eq_false (by omega)⟩
  · have hin : b.size % 2 ^ 16 ≤ room := by omega
    rw [Nat.min_eq_left hin]
    constructor
    · rintro (⟨hnot, -⟩ | ⟨hm, ht⟩)
      · exact absurd ⟨henough, hin⟩ hnot
      · rw [hm, take_write_eq_iff hdata] at ht
        exact .inr (.inl ⟨henough, by omega, ht⟩)
    · rintro (hno | ⟨-, hlt, hcap⟩ | ⟨hlt, -⟩)
      · omega
      · right
        have hm : b.size % 2 ^ 16 = b.size := Nat.mod_eq_of_lt hlt
        refine ⟨hm, ?_⟩
        rw [hm, take_write_eq_iff hdata]
        exact hcap
      · omega

theorem survives_iff (hn : n < 2 ^ 32) (h : Put n os.buf acc) (hb : b.size ≤ b.capacity)
    (hg : Get (os.insertBuffer virtuals e b).buf.mem n is.buf acc.length)
    (hsw : is.swap = os.swap) (hal : is.align = os.align) (junk : UInt16) :
    Survives e os is b c junk ↔ BufferFits os.align n acc.length b.size c.capacity := by
  by_cases hq : place os.align acc.length + 2 ≤ n
  · by_cases hr : n - (place os.align acc.length + 2) < 2 ^ 31 ∨ b.size < 2 ^ 31
    · exact survives_iff_of_short h hb hg hsw hal hq hr junk
    · have hno := @not_survives_of_huge n e os is acc b c hn h hg hal (by omega) (by omega) junk
      refine iff_of_false hno ?_
      rintro (hlt | ⟨-, hlt, -⟩ | ⟨-, hlt, -⟩) <;> omega
  · have hlt : n < place os.align acc.length + 2 := by omega
    exact iff_of_true (survives_of_lt h hb hg hal hlt junk) (.inl hlt)

end Trip

/-- The length that lies ahead drives both the copy and the limit. -/
theorem inside_iff {mem : List UInt8} {n p : Nat} {is : BinStream Unit} (h : Get mem n is.buf p)
    (hn : n ≤ mem.length) (hp : p ≤ n) (e : Endian) (c : Buffer UInt8) (junk : UInt16) :
    StaysInside e is c junk ↔
      (lengthAhead e is.swap is.align (mem.take n) p junk).toNat ≤ c.capacity := by
  rcases h.extractBuffer hn hp e c junk with ⟨hsize, hcap, -, hout, -⟩
  rw [StaysInside, hsize, hcap, hout, Block.length_read_min]
  constructor
  · rintro ⟨-, hle⟩
    exact hle
  · intro hle
    exact ⟨decide_eq_false (by omega), hle⟩

/-- When buffers survive a stream, and what a stream has to say for an extraction to stay inside,
for any settings, positions and sizes. -/
theorem bufferTrip_iff (e : Endian) (n : UInt32) :
    (∀ (os is : BinStream Unit) (acc : List UInt8) (b c : Buffer UInt8) (junk : UInt16),
      Put n.toNat os.buf acc → b.size ≤ b.capacity →
      Get (os.insertBuffer virtuals e b).buf.mem n.toNat is.buf acc.length →
      is.swap = os.swap → is.align = os.align →
      (Survives e os is b c junk ↔ BufferFits os.align n.toNat acc.length b.size c.capacity)) ∧
    ∀ (is : BinStream Unit) (mem : List UInt8) (p : Nat) (c : Buffer UInt8) (junk : UInt16),
      n.toNat ≤ mem.length → p ≤ n.toNat → Get mem n.toNat is.buf p →
      (StaysInside e is c junk ↔
        (lengthAhead e is.swap is.align (mem.take n.toNat) p junk).toNat ≤ c.capacity) := by
  constructor
  · intro os is acc b c junk h hb hg hsw hal
    exact survives_iff n.toNat_lt h hb hg hsw hal junk
  · intro is mem p c junk hn hp h
    exact inside_iff h hn hp e c junk

/-- Three bytes into a buffer of four, in network order. -/
theorem bufferTrip_iff_three :
    let os := (OutMemBinStream (List.replicate 16 0) 16).setByteOrder .little .bigEndian
    let b : Buffer UInt8 := .fixed [1, 2, 3]
    let c : Buffer UInt8 := .alloc [0, 0, 0, 0]
    let is := (InMemBinStream (os.insertBuffer virtuals .little b).buf.mem 16).setByteOrder .little
      .bigEndian
    Survives .little os is b c 9 ∧ StaysInside .little is c 9 := by
  intro os b c is
  have hput : Put 16 os.buf [] := ⟨rfl, by decide, by decide, rfl⟩
  have hget (m : List UInt8) :
      Get m 16 ((InMemBinStream m 16).setByteOrder .little .bigEndian).buf 0 := ⟨rfl, rfl⟩
  have hos : os.swap = true ∧ os.align = false := ⟨rfl, rfl⟩
  have his : is.swap = true ∧ is.align = false := ⟨rfl, rfl⟩
  constructor
  · exact ((bufferTrip_iff .little 16).1 os is [] b c 9 hput (by decide) (hget _)
      (his.1.trans hos.1.symm) (his.2.trans hos.2.symm)).mpr
      (.inr (.inl ⟨by decide, by decide, by decide⟩))
  · exact ((bufferTrip_iff .little 16).2 is _ 0 c 9 (by decide) (by decide) (hget _)).mpr
      (by decide)

/-- Two bytes are stored where there is memory for one. -/
theorem not_survives_one : ¬∀ (os is : BinStream Unit) (b c : Buffer UInt8),
    Put 16 os.buf [] → b.size ≤ b.capacity →
    Get (os.insertBuffer virtuals .little b).buf.mem 16 is.buf 0 →
    is.swap = os.swap → is.align = os.align → Survives .little os is b c 0 := by
  intro h
  rcases h (OutMemBinStream (List.replicate 16 0) 16)
    (InMemBinStream ((OutMemBinStream (List.replicate 16 0) 16).insertBuffer virtuals .little
      (.fixed [1, 2])).buf.mem 16) (.fixed [1, 2]) (.alloc [0])
    ⟨rfl, by decide, by decide, rfl⟩ (by decide) ⟨rfl, rfl⟩ rfl rfl with ⟨-, hout⟩ | ⟨-, ht⟩
  · exact absurd hout (by decide)
  · exact absurd ht (by decide)

end MemBinStreamBuf
end CtrlrFx.Io
