import CtrlrFx.Base.Machine
import CtrlrFx.Data.BufCodec

/-!
# Decoding arbitrary contents

What the extractions of a native decoder read and store when nothing is known of the bytes in
its buffer: `CtrlrFx/BufCodec.h:236–275` over `CtrlrFx/Buffer.h:428–473`. A failed extraction may
leave the position past the limit, and a length that was read may be any number.
-/

namespace CtrlrFx.Data
open Base

/-- A copy of `count` bytes from offset `start` of a buffer, for an item of `size` bytes. -/
structure Fetch where
  size : Nat
  start : Nat
  count : Nat
  deriving DecidableEq, Repr

namespace Fetch

/-- Offsets that are read. -/
def offsets (f : Fetch) : List Nat := List.range' f.start f.count

/-- Bytes that are read. -/
def bytes (f : Fetch) (mem : List UInt8) : List UInt8 := Block.read mem f.start f.count

end Fetch

namespace Buffer

/-- The copy that `getBlock` makes, if it makes one; `CtrlrFx/Buffer.h:466–469`. -/
def fetches (b : Buffer UInt8) (size n : Nat) : List Fetch :=
  if b.pos + n > b.lim then [] else [{ size, start := b.pos, count := n }]

theorem mem_fetches {b : Buffer UInt8} {size n : Nat} {f : Fetch} :
    f ∈ b.fetches size n ↔ b.pos + n ≤ b.lim ∧ f = { size, start := b.pos, count := n } := by
  unfold fetches
  split
  · next h => simp [Nat.not_le.mpr h]
  · next h => simp [Nat.not_lt.mp h]

theorem le_lim_of_mem_fetches {b : Buffer UInt8} {size n : Nat} {f : Fetch}
    (h : f ∈ b.fetches size n) : f.start + f.count ≤ b.lim := by
  rw [mem_fetches] at h
  rw [h.2]
  exact h.1

theorem fetches_aligned_iff {b : Buffer UInt8} {size n : Nat} :
    (∀ f ∈ b.fetches size n, f.size ∣ f.start) ↔ (b.pos + n ≤ b.lim → size ∣ b.pos) := by
  simp only [mem_fetches]
  constructor
  · intro h hr
    exact h _ ⟨hr, rfl⟩
  · rintro h f ⟨hr, rfl⟩
    exact h hr

/-- What `getBlock` delivers are the bytes of its copy. -/
theorem getBlock_bytes (b : Buffer UInt8) (size n : Nat) :
    (b.getBlock n).2.1 = (b.fetches size n).flatMap (·.bytes b.mem) := by
  unfold getBlock fetches
  split
  · rfl
  · simp [Fetch.bytes]

/-- Its count is that of a copy. -/
theorem getBlock_count_iff (b : Buffer UInt8) (size : Nat) {n : Nat} (hn : 0 < n) :
    (b.getBlock n).1 = n ↔ b.fetches size n ≠ [] := by
  unfold getBlock fetches
  split
  · exact iff_of_false (Nat.ne_of_lt hn) (by simp)
  · exact iff_of_true rfl (by simp)

/-- It delivers no more than was asked for. -/
theorem length_getBlock_le (b : Buffer UInt8) (n : Nat) : (b.getBlock n).2.1.length ≤ n := by
  unfold getBlock
  split
  · exact Nat.zero_le n
  · exact List.length_take_le _ _

/-- An item of `n` bytes is taken from a place that is no multiple of `n`: the position is
none and narrows to a negative `int`, the multiple after the next one lies past the memory, and
the limit leaves room. -/
def Strays (b : Buffer UInt8) (n : Nat) : Prop :=
  ¬n ∣ b.pos ∧ 2 ^ 31 ≤ b.pos % 2 ^ 32 ∧ b.capacity ≤ roundUp n b.pos + n ∧ b.pos + n ≤ b.lim

instance (b : Buffer UInt8) (n : Nat) : Decidable (b.Strays n) := by
  unfold Strays
  infer_instance

/-- An alignment that was refused leaves room for an item only at a negative `int`. -/
theorem align_dvd_iff {b : Buffer UInt8} {n : Nat} (hn : n ∣ 2 ^ 32) (hl : b.lim ≤ b.capacity) :
    ((b.align n).pos + n ≤ b.lim → n ∣ (b.align n).pos) ↔ ¬b.Strays n := by
  unfold Strays
  by_cases hd : n ∣ b.pos
  · rw [align_eq b hn (.inl hd), if_pos hd]
    exact iff_of_true (fun _ ↦ hd) fun h ↦ h.1 hd
  · by_cases hp : b.pos % 2 ^ 32 < 2 ^ 31
    · apply iff_of_true _ fun h ↦ absurd hp (Nat.not_lt.mpr h.2.1)
      rw [align_eq b hn (.inr hp), if_neg hd]
      intro hr
      split at hr
      · next hc =>
        rw [if_pos hc]
        exact dvd_roundUp n b.pos
      · have hlt := roundUp_lt b.pos (pos_of_dvd hn)
        omega
    · have hp' := Nat.le_of_not_lt hp
      rw [align_eq_of_negative b hn hd hp']
      split
      · next hc =>
        apply iff_of_true
        · intro _
          exact Nat.dvd_add (dvd_roundUp n b.pos) (Nat.dvd_refl n)
        · rintro ⟨-, -, hcap, -⟩
          omega
      · next hc =>
        constructor
        · rintro h ⟨-, -, -, hr⟩
          exact hd (h hr)
        · intro h hr
          exact absurd ⟨hd, hp', Nat.le_of_not_lt hc, hr⟩ h

end Buffer

namespace BufCodec

/-- Copies made by the get of a value of `n` bytes; `CtrlrFx/BufCodec.h:241–243`. -/
def rawFetches (c : BufCodec) (n : Nat) : List Fetch :=
  if c.good then (c.buf.align n).fetches n n else []

variable (e : Endian)

/-- Copies made by the get of an array of at most `n` bytes: that of its length, and if the
length was read, that of the bytes; `CtrlrFx/BufCodec.h:254–263`. -/
def arrFetches (c : BufCodec) (n : Nat) : List Fetch :=
  let r := c.get e (0 : UInt16)
  c.rawFetches (NativeRep.size UInt16) ++
    if r.1 ≠ NativeRep.size UInt16 then []
    else (r.2.2.buf.align 1).fetches 1 (min n r.2.1.toNat)

theorem rawFetches_of_good {c : BufCodec} (h : c.good = true) (n : Nat) :
    c.rawFetches n = (c.buf.align n).fetches n n := if_pos h

theorem rawFetches_of_bad {c : BufCodec} (h : c.good = false) (n : Nat) :
    c.rawFetches n = [] := if_neg (by simp [h])

theorem getArr_of_bad {c : BufCodec} (h : c.good = false) (n : Nat) :
    c.getArr e n = (0, [], c) := if_neg (by simp [h])

theorem get_of_bad {α : Type} [NativeRep α] {c : BufCodec} (h : c.good = false) (old : α) :
    (c.get e old).1 = 0 := by
  rw [get, getRaw_of_bad h]

theorem arrFetches_of_bad {c : BufCodec} (h : c.good = false) (n : Nat) :
    c.arrFetches e n = [] := by
  have hne : 0 ≠ NativeRep.size UInt16 := by decide
  rw [arrFetches, rawFetches_of_bad h, get_of_bad e h, if_pos hne, List.append_nil]

/-- What a get delivers are the bytes of its copies. -/
theorem getRaw_bytes (c : BufCodec) (n : Nat) :
    (c.getRaw n).2.1 = (c.rawFetches n).flatMap (·.bytes c.buf.mem) := by
  cases hg : c.good with
  | false =>
    rw [getRaw_of_bad hg, rawFetches_of_bad hg]
    rfl
  | true =>
    obtain ⟨r, hr⟩ : ∃ r, (c.buf.align n).getBlock n = r := ⟨_, rfl⟩
    have hb := Buffer.getBlock_bytes (c.buf.align n) n n
    rw [hr, Buffer.mem_align] at hb
    rw [getRaw_of_good hg hr, rawFetches_of_good hg]
    exact hb

/-- A get succeeds exactly if it makes a copy. -/
theorem getRaw_count_iff (c : BufCodec) {n : Nat} (hn : 0 < n) :
    (c.getRaw n).1 = n ↔ c.rawFetches n ≠ [] := by
  cases hg : c.good with
  | false =>
    rw [getRaw_of_bad hg, rawFetches_of_bad hg]
    exact iff_of_false (Nat.ne_of_lt hn) (by simp)
  | true =>
    obtain ⟨r, hr⟩ : ∃ r, (c.buf.align n).getBlock n = r := ⟨_, rfl⟩
    have hc := Buffer.getBlock_count_iff (c.buf.align n) n hn
    rw [hr] at hc
    rw [getRaw_of_good hg hr, rawFetches_of_good hg]
    exact hc

/-- No get reads at or past the limit. -/
theorem le_lim_of_mem_rawFetches {c : BufCodec} {n : Nat} {f : Fetch} (h : f ∈ c.rawFetches n) :
    f.start + f.count ≤ c.buf.lim := by
  cases hg : c.good with
  | false =>
    rw [rawFetches_of_bad hg] at h
    cases h
  | true =>
    rw [rawFetches_of_good hg] at h
    rw [← Buffer.lim_align c.buf n]
    exact Buffer.le_lim_of_mem_fetches h

theorem le_lim_of_mem_arrFetches {c : BufCodec} {n : Nat} {f : Fetch}
    (h : f ∈ c.arrFetches e n) : f.start + f.count ≤ c.buf.lim := by
  rw [arrFetches, List.mem_append] at h
  rcases h with h | h
  · exact le_lim_of_mem_rawFetches h
  · rw [← lim_get e c (0 : UInt16), ← Buffer.lim_align _ 1]
    split at h
    · cases h
    · exact Buffer.le_lim_of_mem_fetches h

/-- An array takes no more than was asked for, whatever length was read. -/
theorem length_getArr_le (c : BufCodec) (n : Nat) : (c.getArr e n).2.1.length ≤ n := by
  rcases getArr_cases e c n with ⟨h, -⟩ | ⟨m, hm, h, -⟩
  · rw [h]
    exact Nat.zero_le n
  · rw [h]
    exact Nat.le_trans (Buffer.length_getBlock_le _ m) hm

/-- A good decoder takes a value from a multiple of its size unless the buffer strays. -/
theorem rawFetches_aligned_iff {c : BufCodec} {n : Nat} (hg : c.good = true) (hn : n ∣ 2 ^ 32)
    (hl : c.buf.lim ≤ c.buf.capacity) :
    (∀ f ∈ c.rawFetches n, f.size ∣ f.start) ↔ ¬c.buf.Strays n := by
  rw [← Buffer.align_dvd_iff hn hl, rawFetches_of_good hg, Buffer.fetches_aligned_iff,
    Buffer.lim_align]

/-- The bytes of an array are at a multiple of one, so its length alone can be misplaced. -/
theorem arrFetches_aligned_iff {c : BufCodec} (n : Nat) (hg : c.good = true)
    (hl : c.buf.lim ≤ c.buf.capacity) :
    (∀ f ∈ c.arrFetches e n, f.size ∣ f.start) ↔ ¬c.buf.Strays 2 := by
  have hn : (2 : Nat) ∣ 2 ^ 32 := by decide
  rw [← rawFetches_aligned_iff hg hn hl]
  constructor
  · intro h f hf
    exact h f (List.mem_append_left _ hf)
  · intro h f hf
    rw [arrFetches, List.mem_append] at hf
    rcases hf with hf | hf
    · exact h f hf
    · split at hf
      · cases hf
      · rw [Buffer.mem_fetches] at hf
        rw [hf.2]
        exact Nat.one_dvd _

end BufCodec

/-- Sizes of scalar types: powers of two that an `int` can hold. -/
def ScalarSize := { n : Nat // n ∣ 2 ^ 30 }

theorem ScalarSize.dvd (n : ScalarSize) : n.1 ∣ 2 ^ 32 :=
  Nat.dvd_trans n.2 (Nat.pow_dvd_pow 2 (by decide))

/-- Calls on a native decoder: the gets of a value, a truth value and an array of bytes, and the
return to the start. -/
inductive Extraction where
  | scalar (n : ScalarSize)
  | bool
  | arr (n : Nat)
  | rewind

/-- What a call returns, the bytes that its destination takes from its start, the copies it makes
out of the buffer, and the decoder it leaves. -/
structure Effect where
  ret : Nat
  stored : List UInt8
  fetches : List Fetch
  codec : BufCodec

namespace Extraction

variable (e : Endian)

/-- What a call does; a truth value is stored in any case. -/
def effect (c : BufCodec) : Extraction → Effect
  | scalar n =>
    let r := c.getRaw n.1
    { ret := r.1, stored := r.2.1, fetches := c.rawFetches n.1, codec := r.2.2 }
  | bool =>
    let r := c.getBool e
    { ret := r.1, stored := NativeRep.bytes e r.2.1, fetches := c.rawFetches 1, codec := r.2.2 }
  | arr n =>
    let r := c.getArr e n
    { ret := r.1, stored := r.2.1, fetches := c.arrFetches e n, codec := r.2.2 }
  | rewind =>
    -- returns the decoder itself, and no count
    { ret := 0, stored := [], fetches := [], codec := c.rewind }

/-- A decoder and any calls on it. -/
def machine : Machine BufCodec Extraction where
  init c := c.buf.Valid
  step c x := some (x.effect e c).codec

/-- What makes a call safe on arbitrary contents. -/
structure Safe (c : BufCodec) (x : Extraction) : Prop where
  /-- No byte at the limit or past it is read. -/
  below : ∀ f ∈ (x.effect e c).fetches, ∀ i ∈ f.offsets, i < c.buf.lim
  /-- No array takes more than was asked for. -/
  within : ∀ n, x = arr n → (x.effect e c).stored.length ≤ n
  /-- On a bad decoder a call returns 0 and leaves its destination alone. -/
  untouched : c.good = false → (x.effect e c).ret = 0 ∧ (x.effect e c).stored = []
  /-- What is taken is at a multiple of its size. -/
  aligned : ∀ f ∈ (x.effect e c).fetches, f.size ∣ f.start

/-- No truth value is asked of a bad decoder, and no word of a good one that strays; an array
begins with a word of two bytes. -/
def Careful (c : BufCodec) : Extraction → Prop
  | scalar n => c.good = true → ¬c.buf.Strays n.1
  | bool => c.good = true
  | arr _ => c.good = true → ¬c.buf.Strays 2
  | rewind => True

instance (c : BufCodec) (x : Extraction) : Decidable (Careful c x) := by
  cases x <;> unfold Careful <;> infer_instance

variable {e}

/-- A variable that a value is got into holds the stored bytes, or what it held. -/
theorem get_eq_effect {α : Type} [NativeRep α] (n : ScalarSize) (hn : NativeRep.size α = n.1)
    (c : BufCodec) (old : α) :
    c.get e old = (((scalar n).effect e c).ret,
      if ((scalar n).effect e c).ret = n.1 then NativeRep.value e ((scalar n).effect e c).stored
        else old, ((scalar n).effect e c).codec) := by
  rw [BufCodec.get, hn]
  rfl

/-- A value is got exactly if its bytes were read. -/
theorem ret_scalar_iff (n : ScalarSize) (c : BufCodec) :
    ((scalar n).effect e c).ret = n.1 ↔ ((scalar n).effect e c).fetches ≠ [] :=
  BufCodec.getRaw_count_iff c (Buffer.pos_of_dvd n.dvd)

/-- A call reads below the limit only. -/
theorem lt_lim_of_mem_offsets {c : BufCodec} {x : Extraction} {f : Fetch}
    (hf : f ∈ (x.effect e c).fetches) {i : Nat} (hi : i ∈ f.offsets) : i < c.buf.lim := by
  have hle : f.start + f.count ≤ c.buf.lim := by
    cases x with
    | scalar n => exact BufCodec.le_lim_of_mem_rawFetches hf
    | bool => exact BufCodec.le_lim_of_mem_rawFetches hf
    | arr n => exact BufCodec.le_lim_of_mem_arrFetches e hf
    | rewind => cases hf
  rw [Fetch.offsets, List.mem_range'_1] at hi
  omega

/-- Calls on a bad decoder read nothing. -/
theorem fetches_of_bad {c : BufCodec} (h : c.good = false) (x : Extraction) :
    (x.effect e c).fetches = [] := by
  cases x with
  | scalar n => exact BufCodec.rawFetches_of_bad h n.1
  | bool => exact BufCodec.rawFetches_of_bad h 1
  | arr n => exact BufCodec.arrFetches_of_bad e h n
  | rewind => rfl

/-- They return 0 and leave the destination alone, save the get of a truth value. -/
theorem untouched_iff {c : BufCodec} (h : c.good = false) (x : Extraction) :
    ((x.effect e c).ret = 0 ∧ (x.effect e c).stored = []) ↔ x ≠ bool := by
  cases x with
  | scalar n =>
    rw [effect, BufCodec.getRaw_of_bad h]
    simp
  | bool => simp [effect, NativeRep.bytes]
  | arr n =>
    rw [effect, BufCodec.getArr_of_bad e h]
    simp
  | rewind => simp [effect]

/-- On a good decoder the words are taken from their places exactly where a call is careful. -/
theorem aligned_iff {c : BufCodec} (hg : c.good = true) (hl : c.buf.lim ≤ c.buf.capacity)
    (x : Extraction) :
    (∀ f ∈ (x.effect e c).fetches, f.size ∣ f.start) ↔ Careful c x := by
  cases x with
  | scalar n =>
    rw [Careful, imp_iff_right hg]
    exact BufCodec.rawFetches_aligned_iff hg n.dvd hl
  | bool =>
    apply iff_of_true _ hg
    apply (BufCodec.rawFetches_aligned_iff hg (Nat.one_dvd _) hl).mpr
    intro h
    exact h.1 (Nat.one_dvd _)
  | arr n =>
    rw [Careful, imp_iff_right hg]
    exact BufCodec.arrFetches_aligned_iff e n hg hl
  | rewind =>
    apply iff_of_true _ trivial
    intro f hf
    cases hf

/-- On any buffer whose limit is in its memory, a call is safe exactly if it is careful. -/
theorem safe_iff {c : BufCodec} (hl : c.buf.lim ≤ c.buf.capacity) (x : Extraction) :
    Safe e c x ↔ Careful c x := by
  have hbelow : ∀ f ∈ (x.effect e c).fetches, ∀ i ∈ f.offsets, i < c.buf.lim :=
    fun _ hf _ hi ↦ lt_lim_of_mem_offsets hf hi
  have hwithin : ∀ n, x = arr n → (x.effect e c).stored.length ≤ n := by
    rintro n rfl
    exact BufCodec.length_getArr_le e c n
  cases hg : c.good with
  | true =>
    rw [← aligned_iff hg hl]
    constructor
    · exact Safe.aligned
    · intro ha
      refine ⟨hbelow, hwithin, ?_, ha⟩
      intro hb
      rw [hg] at hb
      cases hb
  | false =>
    have hc : Careful c x ↔ x ≠ bool := by
      cases x <;> simp [Careful, hg]
    rw [hc, ← untouched_iff hg]
    constructor
    · intro hs
      exact hs.untouched hg
    · intro hu
      refine ⟨hbelow, hwithin, fun _ ↦ hu, ?_⟩
      rw [fetches_of_bad hg]
      intro f hf
      cases hf

/-- No call moves the limit or the end of the memory. -/
theorem limited_effect {c : BufCodec} (hl : c.buf.lim ≤ c.buf.capacity) (x : Extraction) :
    (x.effect e c).codec.buf.lim ≤ (x.effect e c).codec.buf.capacity := by
  cases x with
  | scalar n =>
    rw [effect, BufCodec.lim_getRaw, BufCodec.capacity_getRaw]
    exact hl
  | bool =>
    rw [effect, BufCodec.getBool, BufCodec.lim_get, BufCodec.capacity_get]
    exact hl
  | arr n =>
    rw [effect, BufCodec.lim_getArr, BufCodec.capacity_getArr]
    exact hl
  | rewind => exact hl

/-- From any position in a buffer of any contents, every call of a sequence is safe exactly if
every call is careful. -/
theorem decoding_safe_iff {c : BufCodec} (h : c.buf.Valid) (xs : List Extraction) :
    (machine e).Along (Safe e) c xs ↔ (machine e).Along Careful c xs := by
  apply Machine.along_congr (I := fun c ↦ c.buf.lim ≤ c.buf.capacity) _ _ h.lim_le
  · intro c x hl
    exact safe_iff hl x
  · rintro c x _ hl - ⟨⟩
    exact limited_effect hl x

/-- A byte, an array of more bytes than there are and a word that the failure keeps back; then
the first byte again, as a truth value. -/
theorem decoding_safe_five :
    (machine .little).Along (Safe .little) { buf := .fixed [7, 0, 2, 0, 9], good := true }
      [.scalar ⟨1, by decide⟩, .arr 8, .scalar ⟨4, by decide⟩, .rewind, .bool] := by
  apply (decoding_safe_iff (Buffer.valid_fixed _) _).mpr
  apply (Machine.along_cons rfl).mpr ⟨by decide, _⟩
  apply (Machine.along_cons rfl).mpr ⟨by decide, _⟩
  apply (Machine.along_cons rfl).mpr ⟨by decide, _⟩
  apply (Machine.along_cons rfl).mpr ⟨by decide, _⟩
  exact (Machine.along_cons rfl).mpr ⟨by decide, trivial⟩

/-- In the upper half of `2 ^ 31 + 8` bytes a word of four is read at an odd offset. -/
theorem not_safe_past_half {cells : List UInt8} (h : cells.length = 2 ^ 31 + 8) :
    ¬Safe e { buf := { Buffer.fixed cells with pos := 2 ^ 31 + 1 }, good := true }
      (.scalar ⟨4, by decide⟩) := by
  have hs : ({ Buffer.fixed cells with pos := 2 ^ 31 + 1 } : Buffer UInt8).Strays 4 := by
    change ¬4 ∣ 2 ^ 31 + 1 ∧ 2 ^ 31 ≤ (2 ^ 31 + 1) % 2 ^ 32 ∧
      cells.length ≤ roundUp 4 (2 ^ 31 + 1) + 4 ∧ 2 ^ 31 + 1 + 4 ≤ cells.length
    rw [h]
    decide
  intro hsafe
  exact (safe_iff (Nat.le_refl cells.length) _).mp hsafe rfl hs

/-- A word is asked of a buffer of one byte, and then a truth value: its variable becomes
false. -/
theorem decoding_not_safe : ¬∀ (c : BufCodec) (xs : List Extraction),
    c.buf.Valid → (machine .little).Along (Safe .little) c xs := by
  intro h
  have hs := h { buf := .fixed [1], good := true } [.scalar ⟨4, by decide⟩, .bool]
    (Buffer.valid_fixed _)
  have hbad : ((scalar ⟨4, by decide⟩).effect .little
      { buf := .fixed [1], good := true }).codec.good = false := by decide
  exact (untouched_iff hbad bool).mp ((hs.2 _ rfl).1.untouched hbad) rfl

end Extraction
end CtrlrFx.Data
