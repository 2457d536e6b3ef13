import CtrlrFx.Data.Placement

/-!
# Round trips of arrays

An array of bytes put with its length in front of it, and scalars behind it, taken out again:
`CtrlrFx/BufCodec.h:144–171,236–267`. The put of the array keeps the result of its last step in a
variable of its own, `CtrlrFx/BufCodec.h:167`, and returns another that is 0.
-/

namespace CtrlrFx.Data
open Base

/-- Items of these sizes have room below `cap`, each at its place behind `p`. -/
def Room (cap p : Nat) : List Nat → Prop
  | [] => True
  | n :: ns => place cap n p + n ≤ cap ∧ Room cap (place cap n p + n) ns

/-- An array of `len` bytes and items of these sizes have room in `cap` bytes. Behind an array that
has none the items follow its length, if that narrows to 0. -/
def Fits (cap len : Nat) (ns : List Nat) : Prop :=
  2 ≤ cap ∧ if 2 + len ≤ cap then Room cap (2 + len) ns else 2 ^ 32 ∣ len ∧ Room cap 2 ns

instance decidableRoom (cap p : Nat) : ∀ ns, Decidable (Room cap p ns)
  | [] => isTrue trivial
  | n :: ns =>
    have : Decidable (Room cap (place cap n p + n) ns) := decidableRoom cap _ ns
    inferInstanceAs (Decidable (_ ∧ _))

instance (cap len : Nat) (ns : List Nat) : Decidable (Fits cap len ns) := by
  unfold Fits
  infer_instance

namespace Scalar
open BufCodec

/-- Scalars put up to the end of the memory leave the codec good exactly if they have room. -/
theorem putAll_good_iff {e : Endian} {b : Buffer UInt8} (hl : b.lim = b.capacity)
    (vs : List Scalar) :
    (putAll e { buf := b, good := true } vs).good = true ↔
      Room b.capacity b.pos (vs.map size) := by
  induction vs generalizing b with
  | nil => exact iff_of_true rfl trivial
  | cons v vs ih =>
    have hpos := Buffer.pos_align b v.width_size.dvd
    have hlen := v.length_bytes e
    obtain ⟨a, ha⟩ : ∃ a, b.align v.size = a := ⟨_, rfl⟩
    have hcapa : a.capacity = b.capacity := by rw [← ha, Buffer.capacity_align]
    have hlima : a.lim = b.lim := by rw [← ha, Buffer.lim_align]
    rw [ha] at hpos
    rw [List.map_cons, Room, ← hpos, putAll, put_eq]
    by_cases hr : a.pos + v.size ≤ b.lim
    · have hput : putRaw { buf := b, good := true } v.size (v.bytes e) =
          (v.size, after a (v.bytes e)) := by
        rw [← ha] at hr ⊢
        exact putRaw_of_room rfl hlen hr
      have hcap := capacity_after a (v.bytes e)
      have htail := ih (b := (after a (v.bytes e)).buf) (by rw [lim_after, hcap, hlima, hl, hcapa])
      rw [hcap, hcapa, pos_after, hlen] at htail
      rw [hput, and_iff_right (by omega)]
      exact htail
    · have hput : putRaw { buf := b, good := true } v.size (v.bytes e) =
          (0, { buf := a, good := false }) := by
        rw [← ha] at hr ⊢
        exact putRaw_of_full rfl hlen v.width_size.pos (Nat.lt_of_not_le hr)
      rw [hput, putAll_of_bad e rfl]
      exact iff_of_false (by simp) fun h ↦ by omega

/-- What a put that succeeds makes of a buffer: the bytes of the scalar are at its place, and what
was below the position is there still. -/
theorem put_step {e : Endian} {b : Buffer UInt8} (hb : b.Valid) {v : Scalar} {a : Buffer UInt8}
    (ha : b.align v.size = a) (hg : (v.put e { buf := b, good := true }).2.good = true) :
    ∃ b', (v.put e { buf := b, good := true }).2 = { buf := b', good := true } ∧ b'.Valid ∧
      b'.pos = a.pos + v.size ∧ b'.lim = b.lim ∧ b'.capacity = b.capacity ∧
      b'.mem.take b.pos = b.mem.take b.pos ∧ Block.read b'.mem a.pos v.size = v.bytes e := by
  have hlen := v.length_bytes e
  have hlim := hb.lim_le
  have hle : b.pos ≤ a.pos := by
    rw [← ha]
    exact b.le_pos_align v.size
  have hmem : a.mem = b.mem := by rw [← ha, Buffer.mem_align]
  have hcapa : a.capacity = b.capacity := by rw [← ha, Buffer.capacity_align]
  have hlima : a.lim = b.lim := by rw [← ha, Buffer.lim_align]
  have hcap := capacity_after a (v.bytes e)
  have hpos : (after a (v.bytes e)).buf.pos = a.pos + v.size := by rw [pos_after, hlen]
  obtain ⟨hr, hput⟩ := put_of_good hg
  rw [ha] at hr hput
  have hin : a.pos + (v.bytes e).length ≤ a.mem.length := by
    unfold Buffer.capacity at hcapa hlim
    omega
  have hread := Block.read_write a.mem a.pos (v.bytes e) hin
  rw [hlen] at hread
  refine ⟨(after a (v.bytes e)).buf, ?_, ⟨?_, ?_⟩, hpos, hlima, hcap.trans hcapa, ?_, hread⟩
  · rw [hput]
    rfl
  · rw [hpos, lim_after, hlima]
    exact hr
  · rw [lim_after, hcap, hlima, hcapa]
    exact hlim
  · rw [← hmem]
    exact Block.take_write a.mem a.pos b.pos (v.bytes e) hle hin

/-- Puts that succeed move the position on, keep what is below it and end below the limit. -/
theorem putAll_frame {e : Endian} {b : Buffer UInt8} (hb : b.Valid) {vs : List Scalar}
    (hg : (putAll e { buf := b, good := true } vs).good = true) :
    b.pos ≤ (putAll e { buf := b, good := true } vs).buf.pos ∧
      (putAll e { buf := b, good := true } vs).buf.pos ≤ b.lim ∧
      (putAll e { buf := b, good := true } vs).buf.capacity = b.capacity ∧
      (putAll e { buf := b, good := true } vs).buf.mem.take b.pos = b.mem.take b.pos := by
  induction vs generalizing b with
  | nil => exact ⟨Nat.le_refl _, hb.pos_le, rfl, rfl⟩
  | cons v vs ih =>
    have hle := b.le_pos_align v.size
    obtain ⟨a, ha⟩ : ∃ a, b.align v.size = a := ⟨_, rfl⟩
    rw [ha] at hle
    obtain ⟨b', hput, hb', hpos, hlim, hcap, hkeep, -⟩ := put_step hb ha (good_of_putAll hg)
    rw [putAll, hput] at hg ⊢
    obtain ⟨h1, h2, h3, h4⟩ := ih hb' hg
    have hcut := congrArg (List.take b.pos) h4
    rw [List.take_take, List.take_take, Nat.min_eq_left (by omega)] at hcut
    exact ⟨by omega, by omega, h3.trans hcap, hcut.trans hkeep⟩

/-- A decoder that starts where the puts started, in a memory as large, takes the scalars from
where they were put. -/
theorem getAll_replay {e : Endian} {b d : Buffer UInt8} (hb : b.Valid) {vs olds : List Scalar}
    (hg : (putAll e { buf := b, good := true } vs).good = true)
    (hp : d.pos = b.pos) (hc : d.capacity = b.capacity)
    (hl : d.lim = (putAll e { buf := b, good := true } vs).buf.pos)
    (hm : d.mem.take d.lim = (putAll e { buf := b, good := true } vs).buf.mem.take d.lim)
    (ho : List.Forall₂ SameType olds vs) :
    getAll e { buf := d, good := true } olds =
      (vs.map size, vs, { buf := { d with pos := d.lim }, good := true }) := by
  induction vs generalizing b d olds with
  | nil =>
    cases ho
    have hend : d.pos = d.lim := hp.trans hl.symm
    cases d
    dsimp only at hend
    subst hend
    rfl
  | cons v vs ih =>
    cases ho with
    | cons hty ho =>
      rename_i old olds
      have hda := Buffer.align_eq_place d v.width_size.dvd
      rw [hc, hp, ← Buffer.pos_align b v.width_size.dvd] at hda
      obtain ⟨a, ha⟩ : ∃ a, b.align v.size = a := ⟨_, rfl⟩
      obtain ⟨b', hput, hb', hpos, -, hcap, -, hbytes⟩ := put_step hb ha (good_of_putAll hg)
      rw [ha] at hda
      rw [putAll, hput] at hg hl hm
      obtain ⟨h1, -, -, h4⟩ := putAll_frame hb' hg
      rw [hpos] at h1 h4
      have hroom : a.pos + v.size ≤ d.lim := by
        rw [hl]
        exact h1
      -- the bytes that this put stored are still there after the others
      have hread : Block.read d.mem a.pos v.size = v.bytes e := by
        rw [← Block.read_take _ _ _ _ (Nat.le_refl (a.pos + v.size))] at hbytes
        rw [← Block.read_take _ _ _ _ hroom, hm, Block.read_take _ _ _ _ hroom,
          ← Block.read_take _ _ _ _ (Nat.le_refl (a.pos + v.size)), h4]
        exact hbytes
      have hraw := @getRaw_of_room { buf := d, good := true } rfl v.size (by rw [hda]; exact hroom)
      rw [hda] at hraw
      dsimp only at hraw
      rw [hread] at hraw
      have htail := ih (d := { d with pos := a.pos + v.size }) hb' hg hpos.symm
        (hc.trans hcap.symm) hl hm ho
      simp only [getAll, get_eq hty hraw, htail, List.map_cons]

/-! ### An array and scalars behind it -/

/-- An array and the scalars behind it, put into an empty buffer. -/
def putBoth (e : Endian) (c : BufCodec) (arr : List UInt8) (vs : List Scalar) : BufCodec :=
  putAll e (c.clear.putArr e arr).2 vs

/-- A decoder on `b` gets the array with its length, into an array that has room for it, and then
the scalars, and ends good at the limit, whatever the variables held. -/
def DecodesBoth (e : Endian) (b : Buffer UInt8) (arr : List UInt8) (vs : List Scalar) : Prop :=
  ∀ m, arr.length ≤ m → ∀ olds, List.Forall₂ SameType olds vs →
    ∃ d, getArr e { buf := b, good := true } m = (arr.length, arr, d) ∧
      ∃ b', getAll e d olds = (vs.map size, vs, { buf := b', good := true }) ∧ b'.pos = b'.lim

/-- What putting an array and scalars is for: the encoder is bad, or the put has told the length of
the array, and all of it comes out again. -/
def ArrayTrips (e : Endian) (c : BufCodec) (arr : List UInt8) (vs : List Scalar) : Prop :=
  (putBoth e c arr vs).good = false ∨
    ((c.clear.putArr e arr).1 = arr.length ∧ DecodesBoth e (putBoth e c arr vs).buf.flip arr vs)

/-- No put of an array tells anything but 0. -/
theorem putArr_ret (e : Endian) (c : BufCodec) (arr : List UInt8) : (c.putArr e arr).1 = 0 := by
  cases hg : c.good with
  | false =>
    have hbad : c.putArr e arr = (0, c) := if_neg (by simp [hg])
    rw [hbad]
  | true =>
    rcases putArr_spec (e := e) hg rfl arr with
      ⟨-, h, -⟩ | ⟨-, -, h, -⟩ | ⟨-, h, -⟩ <;> rw [h]

/-- The start of a buffer is aligned. -/
theorem align_clear (c : BufCodec) : c.clear.buf.align 2 = c.clear.buf := by
  have hd : 2 ∣ c.clear.buf.pos := Nat.dvd_zero 2
  rw [Buffer.align_eq _ (by decide) (.inl hd), if_pos hd]

/-- An encoder is good after an array and scalars exactly if these fit. -/
theorem putBoth_good_iff (e : Endian) (c : BufCodec) (arr : List UInt8) (vs : List Scalar) :
    (putBoth e c arr vs).good = true ↔ Fits c.buf.capacity arr.length (vs.map size) := by
  have hlim : c.clear.buf.lim = c.buf.capacity := rfl
  have h0 : c.clear.buf.pos = 0 := rfl
  unfold putBoth Fits
  rcases putArr_spec (e := e) (show c.clear.good = true from rfl) (align_clear c) arr with
    ⟨hf, hput, -⟩ | ⟨hr, hf, hput, -⟩ | ⟨hr, hput, -⟩
  · rw [hput, putAll_of_bad e rfl]
    exact iff_of_false (by simp) fun h ↦ by omega
  · rw [hput, and_iff_right (by omega), if_neg (by omega)]
    by_cases hd : 2 ^ 32 ∣ arr.length
    · have hcap := capacity_after c.clear.buf (count e arr)
      have hz : (toInt32 (0 : Nat) == toInt32 arr.length) = true := by
        by_contra hne
        exact (CodecOp.toInt32_zero_beq_iff _).mp (Bool.eq_false_of_not_eq_true hne) hd
      have hrest := putAll_good_iff (e := e) (b := (after c.clear.buf (count e arr)).buf)
        hcap.symm vs
      rw [hcap, pos_after, h0, length_count, Nat.zero_add] at hrest
      rw [hz, and_iff_right hd]
      exact hrest
    · rw [(CodecOp.toInt32_zero_beq_iff _).mpr hd, putAll_of_bad e rfl]
      exact iff_of_false (by simp) fun h ↦ hd h.1
  · have hcap := capacity_after c.clear.buf (count e arr ++ arr)
    have hrest := putAll_good_iff (e := e) (b := (after c.clear.buf (count e arr ++ arr)).buf)
      hcap.symm vs
    rw [hcap, pos_after, h0, List.length_append, length_count, Nat.zero_add] at hrest
    rw [hput, and_iff_right (by omega), if_pos (by omega)]
    exact hrest

/-- Of an empty array its length alone is put. -/
theorem putArr_nil {e : Endian} {c : BufCodec} (h2 : 2 ≤ c.clear.buf.capacity) :
    ∃ b, (c.clear.putArr e []).2 = { buf := b, good := true } ∧ b.Valid ∧ b.pos = 2 ∧
      b.capacity = c.clear.buf.capacity ∧ Block.read b.mem 0 2 = count e [] := by
  have h0 : c.clear.buf.pos = 0 := rfl
  have hlim : c.clear.buf.lim = c.clear.buf.capacity := rfl
  have hcap := capacity_after c.clear.buf (count e [])
  have hpos : (after c.clear.buf (count e [])).buf.pos = 2 := by rw [pos_after, length_count, h0]
  have hread := Block.read_write c.clear.buf.mem 0 (count e []) (by rw [length_count]; exact h2)
  rw [length_count] at hread
  refine ⟨(after c.clear.buf (count e [])).buf, ?_, ⟨?_, Nat.le_of_eq ?_⟩, hpos, hcap, hread⟩
  · rcases putArr_spec (e := e) (show c.clear.good = true from rfl) (align_clear c) [] with
      ⟨hf, -⟩ | ⟨hr, hf, -⟩ | ⟨hr, hput, -⟩
    · omega
    · rw [List.length_nil] at hf
      omega
    · rw [hput, List.append_nil]
      rfl
  · rw [hpos]
    exact h2
  · rw [hcap]
    exact hlim

/-- Where the length 0 is at the start, an empty array is got. -/
theorem getArr_nil {e : Endian} {f : Buffer UInt8} (h0 : f.pos = 0) (h2 : 2 ≤ f.lim)
    (hr : Block.read f.mem 0 2 = count e []) (m : Nat) :
    getArr e { buf := f, good := true } m =
      (0, [], { buf := { f with pos := 2 }, good := true }) := by
  have hfa : f.align 2 = f := by
    have hd : 2 ∣ f.pos := h0 ▸ Nat.dvd_zero 2
    rw [Buffer.align_eq _ (by decide) (.inl hd), if_pos hd]
  have hcount : min m (countAt e f.mem f.pos) = 0 := by
    rw [countAt, h0, hr, count, NativeRep.value_bytes]
    exact Nat.min_zero m
  rcases getItems_spec (e := e) (c := { buf := f, good := true }) rfl m hfa
      (Buffer.align_one _) hcount with
    ⟨hlt, -⟩ | ⟨-, hlt, -⟩ | ⟨-, -, h, -⟩
  · dsimp only at hlt
    omega
  · dsimp only at hlt
    omega
  · rw [← getItems_one, h]
    simp only [h0, Block.read_zero, Nat.zero_add, Nat.add_zero]

/-- An empty array and the scalars behind it come out again if they fit. -/
theorem decodesBoth_nil {e : Endian} {c : BufCodec} {vs : List Scalar}
    (hg : (putBoth e c [] vs).good = true) : DecodesBoth e (putBoth e c [] vs).buf.flip [] vs := by
  have h2 : 2 ≤ c.clear.buf.capacity := ((putBoth_good_iff e c [] vs).mp hg).1
  obtain ⟨b, hput, hvalid, hpos, hcap, hread⟩ := putArr_nil (e := e) h2
  unfold putBoth at hg ⊢
  rw [hput] at hg ⊢
  obtain ⟨hle, -, hcap', hkeep⟩ := putAll_frame hvalid hg
  rw [hpos] at hle hkeep
  obtain ⟨f, hf⟩ : ∃ f, (putAll e { buf := b, good := true } vs).buf.flip = f := ⟨_, rfl⟩
  have hfpos : f.pos = 0 := by
    rw [← hf]
    rfl
  have hflim : f.lim = (putAll e { buf := b, good := true } vs).buf.pos := by
    rw [← hf]
    rfl
  have hfmem : f.mem = (putAll e { buf := b, good := true } vs).buf.mem := by
    rw [← hf]
    rfl
  have hfcap : f.capacity = b.capacity := by
    rw [← hf]
    exact hcap'
  -- the scalars left the length of the empty array as it was
  have hlen : Block.read f.mem 0 2 = count e [] := by
    rw [← Block.read_take _ _ _ _ (Nat.le_refl (0 + 2)), hfmem, Nat.zero_add, hkeep,
      Block.read_take _ _ _ _ (Nat.le_refl 2), hread]
  rw [hf]
  intro m _ olds ho
  have hrest := getAll_replay (d := { f with pos := 2 }) hvalid hg hpos.symm hfcap hflim
    (congrArg (List.take f.lim) hfmem) ho
  exact ⟨_, getArr_nil hfpos (by omega) hlen m, _, hrest, rfl⟩

/-- An array and scalars, put into an empty buffer of any capacity, make the round trip exactly if
the array is empty or the encoder has no room for them. -/
theorem arrayTrips_iff (e : Endian) (c : BufCodec) (arr : List UInt8) (vs : List Scalar) :
    ArrayTrips e c arr vs ↔ arr = [] ∨ ¬Fits c.buf.capacity arr.length (vs.map size) := by
  have hgood := putBoth_good_iff e c arr vs
  constructor
  · rintro (hbad | ⟨hret, -⟩)
    · right
      intro hfit
      rw [hgood.mpr hfit] at hbad
      cases hbad
    · left
      rw [putArr_ret] at hret
      exact List.eq_nil_of_length_eq_zero hret.symm
  · rintro (rfl | hfit)
    · cases hg : (putBoth e c [] vs).good with
      | false => exact .inl hg
      | true => exact .inr ⟨putArr_ret e _ [], decodesBoth_nil hg⟩
    · left
      apply Bool.eq_false_of_not_eq_true
      intro ht
      exact hfit (hgood.mp ht)

/-- One byte put into a buffer of four is stored behind its length, and the put tells 0. -/
theorem not_arrayTrips_byte :
    let c : BufCodec := { buf := .alloc [0, 0, 0, 0], good := true }
    (putBoth .little c [7] []).good = true ∧
      (putBoth .little c [7] []).buf.written = [1, 0, 7] ∧
      (c.clear.putArr .little [7]).1 = 0 ∧ ¬ArrayTrips .little c [7] [] := by
  intro c
  have hg : (putBoth .little c [7] []).good = true := by decide
  have hret : (c.clear.putArr .little [7]).1 = 0 := by decide
  refine ⟨hg, by decide, hret, ?_⟩
  rintro (hbad | ⟨h, -⟩)
  · rw [hg] at hbad
    cases hbad
  · rw [hret] at h
    cases h

end Scalar
end CtrlrFx.Data
