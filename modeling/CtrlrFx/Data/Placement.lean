import CtrlrFx.Data.CodecFlag

/-!
# Where native codecs place items

`CtrlrFx/Buffer.h:428–438` as arithmetic: the offset that alignment moves to depends on the position
and the capacity alone, and not on how far the limit is. A codec that then finds no room has
moved all the same.
-/

namespace CtrlrFx.Data
open Base

/-- The offset that alignment aims at from an offset that is no multiple: the next multiple, or
where the offset narrows to a negative `int`, the one after it. -/
def target (n p : Nat) : Nat := if p % 2 ^ 32 < 2 ^ 31 then roundUp n p else roundUp n p + n

/-- The offset at which an item of `n` bytes is placed behind `p`, in a memory of `cap` bytes. -/
def place (cap n p : Nat) : Nat := if n ∣ p then p else if target n p < cap then target n p else p

theorem lt_target {n p : Nat} (hn : 0 < n) (hd : ¬n ∣ p) : p < target n p := by
  have hle := le_roundUp p hn
  have hne : roundUp n p ≠ p := fun h ↦ hd (h ▸ dvd_roundUp n p)
  unfold target
  split <;> omega

theorem place_of_dvd {cap n p : Nat} (h : n ∣ p) : place cap n p = p := if_pos h

namespace Buffer

variable {T : Type}

/-- Alignment moves the position to its place. -/
theorem align_eq_place (b : Buffer T) {n : Nat} (hn : n ∣ 2 ^ 32) :
    b.align n = { b with pos := place b.capacity n b.pos } := by
  by_cases hd : n ∣ b.pos
  · rw [place_of_dvd hd, align_eq b hn (.inl hd), if_pos hd]
  · unfold place target
    rw [if_neg hd]
    by_cases hp : b.pos % 2 ^ 32 < 2 ^ 31
    · rw [align_eq b hn (.inr hp), if_neg hd, if_pos hp]
      split <;> rfl
    · rw [align_eq_of_negative b hn hd (Nat.le_of_not_lt hp), if_neg hp]
      split <;> rfl

theorem pos_align (b : Buffer T) {n : Nat} (hn : n ∣ 2 ^ 32) :
    (b.align n).pos = place b.capacity n b.pos := by rw [align_eq_place b hn]

/-- An item of `n` bytes makes the position move, into the memory, to where the limit leaves it no
room. -/
def Slips (b : Buffer T) (n : Nat) : Prop :=
  ¬n ∣ b.pos ∧ target n b.pos < b.capacity ∧ b.lim < target n b.pos + n

instance (b : Buffer T) (n : Nat) : Decidable (b.Slips n) := by
  unfold Slips
  infer_instance

/-- The length of an array has room at its place, but the array of `n` bytes has none behind it. -/
def Short (b : Buffer T) (n : Nat) : Prop :=
  place b.capacity 2 b.pos + 2 ≤ b.lim ∧ b.lim < place b.capacity 2 b.pos + 2 + n

instance (b : Buffer T) (n : Nat) : Decidable (b.Short n) := by
  unfold Short
  infer_instance

/-- A move that leaves no room. -/
theorem slips_iff {b : Buffer T} {n : Nat} (hn : n ∣ 2 ^ 32)
    (hr : b.lim < (b.align n).pos + n) : b.Slips n ↔ b.align n ≠ b := by
  unfold Slips
  rw [pos_align b hn] at hr
  rw [align_eq_place b hn]
  unfold place at hr ⊢
  by_cases hd : n ∣ b.pos
  · rw [if_pos hd]
    exact iff_of_false (fun h ↦ h.1 hd) fun h ↦ h rfl
  · have hlt := lt_target (pos_of_dvd hn) hd
    rw [if_neg hd] at hr ⊢
    by_cases hc : target n b.pos < b.capacity
    · rw [if_pos hc] at hr ⊢
      apply iff_of_true ⟨hd, hc, hr⟩
      intro he
      have hpos := congrArg Buffer.pos he
      dsimp only at hpos
      omega
    · rw [if_neg hc]
      exact iff_of_false (fun h ↦ hc h.2.1) fun h ↦ h rfl

/-- Where there is room, nothing slips. -/
theorem not_slips_of_room {b : Buffer T} {n : Nat} (hn : n ∣ 2 ^ 32)
    (hr : (b.align n).pos + n ≤ b.lim) : ¬b.Slips n := by
  rw [pos_align b hn] at hr
  rintro ⟨hd, hc, hl⟩
  rw [place, if_neg hd, if_pos hc] at hr
  omega

end Buffer

namespace CodecOp

/-- Calls of a native encoder or decoder: a scalar, or an array of bytes. -/
def Plain : CodecOp → Prop
  | put bs => bs.length ∣ 2 ^ 30
  | get n => n ∣ 2 ^ 30
  | putArr _ => True
  | getArr w _ => w = 1
  | _ => False

/-- A call that fails leaves the buffer as it was. -/
def Atomic (e : Endian) (c : BufCodec) (x : CodecOp) : Prop :=
  ¬Succeeds e c x → (x.effect e c).codec.buf = c.buf

/-- A call on a good codec leaves less room than its item needs: it slips; or it puts or gets the
length of an array that has no room behind it. -/
def Spills (e : Endian) (c : BufCodec) : CodecOp → Prop
  | put bs => c.good = true ∧ c.buf.Slips bs.length
  | get n => c.good = true ∧ c.buf.Slips n
  | putArr arr => c.good = true ∧ (c.buf.Slips 2 ∨ c.buf.Short arr.length)
  | getArr _ n => c.good = true ∧ (c.buf.Slips 2 ∨
      c.buf.Short (min n (BufCodec.countAt e c.buf.mem (place c.buf.capacity 2 c.buf.pos))))
  | _ => False

variable {e : Endian}

/-- Calls on a bad codec leave it as it was. -/
theorem codec_of_bad {c : BufCodec} (hg : c.good = false) {x : CodecOp} (hx : x.Plain) :
    (x.effect e c).codec = c := by
  cases x with
  | put bs => rw [effect, BufCodec.putRaw_of_bad hg]
  | get n => rw [effect, BufCodec.getRaw_of_bad hg]
  | putArr arr =>
    have hbad : c.putArr e arr = (0, c) := if_neg (by simp [hg])
    rw [effect, hbad]
  | getArr w n =>
    have hbad : c.getItems e w n = (0, [], c) := if_neg (by simp [hg])
    rw [effect, hbad]
  | _ => exact hx.elim

/-- A transfer of one item is atomic exactly if it does not slip. -/
theorem atomic_item_iff {c : BufCodec} {x : CodecOp} {n : Nat} (hn : n ∣ 2 ^ 32)
    (hroom : (c.buf.align n).pos + n ≤ c.buf.lim → Succeeds e c x)
    (hfull : c.buf.lim < (c.buf.align n).pos + n →
      ¬Succeeds e c x ∧ (x.effect e c).codec.buf = c.buf.align n) :
    Atomic e c x ↔ ¬c.buf.Slips n := by
  by_cases hr : (c.buf.align n).pos + n ≤ c.buf.lim
  · apply iff_of_true
    · intro hs
      exact absurd (hroom hr) hs
    · exact Buffer.not_slips_of_room hn hr
  · have hlt := Nat.lt_of_not_le hr
    obtain ⟨hs, hbuf⟩ := hfull hlt
    rw [Buffer.slips_iff hn hlt, not_not, Atomic, hbuf]
    exact imp_iff_right hs

/-- So is that of an array, if its items have room once its length has been moved. -/
theorem atomic_array_iff {c : BufCodec} {x : CodecOp} {n : Nat} {a : Buffer UInt8}
    (ha : c.buf.align 2 = a)
    (hfull : c.buf.lim < a.pos + 2 → ¬Succeeds e c x ∧ (x.effect e c).codec.buf = a)
    (hshort : a.pos + 2 ≤ c.buf.lim → c.buf.lim < a.pos + 2 + n →
      ¬Succeeds e c x ∧ (x.effect e c).codec.buf.pos = a.pos + 2)
    (hroom : a.pos + 2 + n ≤ c.buf.lim → Succeeds e c x) :
    Atomic e c x ↔ ¬(c.buf.Slips 2 ∨ c.buf.Short n) := by
  have h2 : (2 : Nat) ∣ 2 ^ 32 := by decide
  have hpos : place c.buf.capacity 2 c.buf.pos = a.pos := by rw [← ha, Buffer.pos_align _ h2]
  have hle : c.buf.pos ≤ a.pos := by
    rw [← ha]
    exact c.buf.le_pos_align 2
  rw [Buffer.Short, hpos]
  by_cases hr : a.pos + 2 ≤ c.buf.lim
  · have hslip : ¬c.buf.Slips 2 := by
      apply Buffer.not_slips_of_room h2
      rwa [ha]
    by_cases hall : a.pos + 2 + n ≤ c.buf.lim
    · apply iff_of_true
      · intro hs
        exact absurd (hroom hall) hs
      · rintro (h | h)
        · exact hslip h
        · omega
    · have hlt := Nat.lt_of_not_le hall
      obtain ⟨hs, hbuf⟩ := hshort hr hlt
      apply iff_of_false
      · intro hat
        rw [hat hs] at hbuf
        omega
      · intro h
        exact h (.inr ⟨hr, hlt⟩)
  · have hlt := Nat.lt_of_not_le hr
    obtain ⟨hs, hbuf⟩ := hfull hlt
    have hnot : ¬(a.pos + 2 ≤ c.buf.lim ∧ c.buf.lim < a.pos + 2 + n) := fun h ↦ hr h.1
    rw [or_iff_left hnot, Buffer.slips_iff h2 (by rwa [ha]), not_not, Atomic, hbuf, ha]
    exact imp_iff_right hs

section Good

variable {c : BufCodec}

/-- On a good codec a put of a scalar is atomic exactly if it does not slip. -/
theorem atomic_put_iff (hg : c.good = true) {bs : List UInt8} (hd : bs.length ∣ 2 ^ 32) :
    Atomic e c (put bs) ↔ ¬c.buf.Slips bs.length := by
  apply atomic_item_iff hd
  · intro hr
    rw [Succeeds, effect, BufCodec.putRaw_of_room hg rfl hr]
  · intro hf
    have h0 := Buffer.pos_of_dvd hd
    have he : (put bs).effect e c = { ret := 0, need := bs.length, moved := 0
                                      codec := ⟨c.buf.align bs.length, false⟩ } := by
      rw [effect, BufCodec.putRaw_of_full hg rfl h0 hf]
    constructor
    · rw [Succeeds, he]
      exact Nat.ne_of_lt h0
    · rw [he]

/-- So is a get of a scalar. -/
theorem atomic_get_iff (hg : c.good = true) {n : Nat} (hd : n ∣ 2 ^ 32) :
    Atomic e c (get n) ↔ ¬c.buf.Slips n := by
  apply atomic_item_iff hd
  · intro hr
    rw [Succeeds, effect, BufCodec.getRaw_of_room hg hr]
  · intro hf
    have h0 := Buffer.pos_of_dvd hd
    have he : (get n).effect e c = { ret := 0, need := n, moved := 0
                                     codec := ⟨c.buf.align n, false⟩ } := by
      rw [effect, BufCodec.getRaw_of_empty hg h0 hf]
    constructor
    · rw [Succeeds, he]
      exact Nat.ne_of_lt h0
    · rw [he]

/-- A put of an array is atomic exactly if moreover its bytes have room behind its length. -/
theorem atomic_putArr_iff (hg : c.good = true) (arr : List UInt8) :
    Atomic e c (putArr arr) ↔ ¬(c.buf.Slips 2 ∨ c.buf.Short arr.length) := by
  obtain ⟨a, ha⟩ : ∃ a, c.buf.align 2 = a := ⟨_, rfl⟩
  have hsucc : Succeeds e c (putArr arr) ↔ c.putArrMoved e arr = 2 + arr.length := Iff.rfl
  rcases BufCodec.putArr_spec (e := e) hg ha arr with
    ⟨hf, hput, hmoved⟩ | ⟨hr, hf, hput, hmoved⟩ | ⟨hr, hput, hmoved⟩
  · apply atomic_array_iff ha
    · intro _
      rw [hsucc, hmoved, effect, hput]
      exact ⟨by omega, rfl⟩
    · omega
    · omega
  · apply atomic_array_iff ha
    · omega
    · intro _ _
      rw [hsucc, hmoved, effect, hput]
      exact ⟨by omega, by rw [BufCodec.pos_after, BufCodec.length_count]⟩
    · omega
  · apply atomic_array_iff ha
    · omega
    · omega
    · intro _
      rw [hsucc]
      exact hmoved

/-- So is a get of an array, of as many bytes as its length tells and are asked for. -/
theorem atomic_getArr_iff (hg : c.good = true) (n : Nat) :
    Atomic e c (getArr 1 n) ↔ ¬(c.buf.Slips 2 ∨
      c.buf.Short (min n (BufCodec.countAt e c.buf.mem (place c.buf.capacity 2 c.buf.pos)))) := by
  obtain ⟨a, ha⟩ : ∃ a, c.buf.align 2 = a := ⟨_, rfl⟩
  have hpos : place c.buf.capacity 2 c.buf.pos = a.pos := by
    rw [← ha, Buffer.pos_align _ (by decide)]
  obtain ⟨m, hm⟩ : ∃ m, min n (BufCodec.countAt e c.buf.mem a.pos) = m := ⟨_, rfl⟩
  have hsucc : Succeeds e c (getArr 1 n) ↔
      c.getItemsMoved e 1 n = c.getItemsNeed e 1 n := Iff.rfl
  rw [hpos, hm]
  rcases BufCodec.getItems_spec (e := e) (w := 1) hg n ha (Buffer.align_one _) hm with
    ⟨hf, hget, hmoved, hneed⟩ | ⟨hr, hf, hget, hmoved, hneed⟩ | ⟨hr, hl, hget, hmoved, hneed⟩
  · apply atomic_array_iff ha
    · intro _
      rw [hsucc, hmoved, hneed, effect, hget]
      exact ⟨by omega, rfl⟩
    · omega
    · omega
  · dsimp only at hf
    apply atomic_array_iff ha
    · omega
    · intro _ _
      rw [hsucc, hmoved, hneed, effect, hget]
      exact ⟨by omega, rfl⟩
    · omega
  · apply atomic_array_iff ha
    · omega
    · dsimp only at hl
      omega
    · intro _
      rw [hsucc, hmoved, hneed, Nat.mul_one]

end Good

/-- A call on a native codec is atomic exactly if it does not spill. -/
theorem atomic_iff (e : Endian) {c : BufCodec} {x : CodecOp} (hx : x.Plain) :
    Atomic e c x ↔ ¬Spills e c x := by
  cases hg : c.good with
  | false =>
    apply iff_of_true
    · intro _
      rw [codec_of_bad hg hx]
    · cases x <;> simp [Spills, hg]
  | true =>
    have hd {n : Nat} (h : n ∣ 2 ^ 30) : n ∣ 2 ^ 32 := Nat.dvd_trans h (by decide)
    cases x with
    | put bs =>
      simp only [Spills, hg, true_and]
      exact atomic_put_iff hg (hd hx)
    | get n =>
      simp only [Spills, hg, true_and]
      exact atomic_get_iff hg (hd hx)
    | putArr arr =>
      simp only [Spills, hg, true_and]
      exact atomic_putArr_iff hg arr
    | getArr w n =>
      subst hx
      simp only [Spills, hg, true_and]
      exact atomic_getArr_iff hg n
    | _ => exact hx.elim

/-- A word of four at the sixth of ten bytes. -/
theorem atomic_iff_word : (CodecOp.put [1, 2, 3, 4]).Plain ∧
    (Atomic .little
        { buf := { Buffer.fixed (List.replicate 10 0) with pos := 5 }, good := true }
        (.put [1, 2, 3, 4]) ↔
      ¬Spills .little
        { buf := { Buffer.fixed (List.replicate 10 0) with pos := 5 }, good := true }
        (.put [1, 2, 3, 4])) := by
  have hp : (CodecOp.put [1, 2, 3, 4]).Plain := ⟨2 ^ 28, by decide⟩
  exact ⟨hp, atomic_iff .little hp⟩

/-- At offset 5 of ten bytes a word of four fails, and the position is 8 afterwards. -/
theorem not_atomic_word :
    let c : BufCodec :=
      { buf := { Buffer.fixed (List.replicate 10 0) with pos := 5 }, good := true }
    c.buf.Valid ∧ ((CodecOp.put [1, 2, 3, 4]).effect .little c).codec.good = false ∧
      ((CodecOp.put [1, 2, 3, 4]).effect .little c).codec.buf.pos = 8 ∧
      ¬Atomic .little c (.put [1, 2, 3, 4]) := by
  intro c
  have hpos : ((CodecOp.put [1, 2, 3, 4]).effect .little c).codec.buf.pos = 8 := by decide
  refine ⟨⟨by decide, by decide⟩, by decide, hpos, ?_⟩
  intro ha
  rw [ha (by unfold Succeeds; decide)] at hpos
  exact absurd hpos (by decide)

end CodecOp
end CtrlrFx.Data
