import CtrlrFx.Io.BinStreamBuf

/-!
# Stream buffers byte by byte

A bulk transfer of `src/io/BinStream/BinStreamBuf.cpp` is one of single bytes, whatever the
virtual functions do. What holds of single bytes for a subclass so holds of blocks, and of
padding.
-/

namespace CtrlrFx.Io.BinStreamBuf
open Base

variable {δ : Type} (v : Overrides δ)

/-- Bytes got one after another until one is missing. -/
def getEach : Nat → BinStreamBuf δ → List UInt8 × BinStreamBuf δ
  | 0, b => ([], b)
  | n + 1, b =>
    let c := b.sbumpc v
    if c.1 < 0 then ([], c.2)
    else
      let r := getEach n c.2
      (UInt8.ofNat c.1.toNat :: r.1, r.2)

/-- The number of bytes put one after another until one is refused. -/
def putEach : List UInt8 → BinStreamBuf δ → Nat × BinStreamBuf δ
  | [], b => (0, b)
  | x :: xs, b =>
    let c := b.sputc v x
    if c.1 < 0 then (0, c.2)
    else
      let r := putEach xs c.2
      (r.1 + 1, r.2)

variable {v}

theorem byteAt_gbump (b : BinStreamBuf δ) (n : Int) (i : Nat) :
    (b.gbump n).byteAt i = b.byteAt i := rfl

theorem bytesAt_gbump (b : BinStreamBuf δ) (k : Int) (i n : Nat) :
    (b.gbump k).bytesAt i n = b.bytesAt i n := by
  induction n generalizing i with
  | zero => rfl
  | succ n ih => rw [bytesAt, bytesAt, ih, byteAt_gbump]

section Bulk

/-- One round for each byte is enough. -/
theorem xsgetnLoop_rounds {k cnt : Nat} (h : cnt ≤ k) (b : BinStreamBuf δ) :
    xsgetnLoop v k cnt b = b.xsgetn v cnt := by
  suffices hloop : ∀ k j cnt b, cnt ≤ k → cnt ≤ j →
      xsgetnLoop v k cnt b = xsgetnLoop v j cnt b from hloop k cnt cnt b h (Nat.le_refl cnt)
  intro k
  induction k with
  | zero =>
    intro j cnt b hk _
    rw [Nat.le_zero.mp hk]
    cases j <;> rfl
  | succ k ih =>
    intro j cnt b hk hj
    cases j with
    | zero =>
      rw [Nat.le_zero.mp hj]
      rfl
    | succ j =>
      rw [xsgetnLoop, xsgetnLoop]
      split
      · rfl
      · next hc =>
        split
        · next hg =>
          have hlt := hasGet_iff.mp hg
          dsimp only
          rw [ih j _ _ (by omega) (by omega)]
        · dsimp only
          rw [ih j _ _ (by omega) (by omega)]

/-- One round for each byte is enough. -/
theorem xsputnLoop_rounds {k : Nat} {bs : List UInt8} (h : bs.length ≤ k) (b : BinStreamBuf δ) :
    xsputnLoop v k bs b = b.xsputn v bs := by
  suffices hloop : ∀ k j bs b, bs.length ≤ k → bs.length ≤ j →
      xsputnLoop v k bs b = xsputnLoop v j bs b from
    hloop k bs.length bs b h (Nat.le_refl bs.length)
  intro k
  induction k with
  | zero =>
    intro j bs b hk _
    rw [List.eq_nil_of_length_eq_zero (Nat.le_zero.mp hk)]
    cases j <;> rfl
  | succ k ih =>
    intro j bs b hk hj
    cases bs with
    | nil => cases j <;> rfl
    | cons x xs =>
      cases j with
      | zero => exact absurd hj (Nat.not_succ_le_zero _)
      | succ j =>
        rw [List.length_cons] at hk hj
        rw [xsputnLoop, xsputnLoop]
        split
        · next hg =>
          have hlt := hasPut_iff.mp hg
          have hl : (x :: xs).length = xs.length + 1 := rfl
          dsimp only
          rw [ih j _ _ (by rw [List.length_drop]; omega) (by rw [List.length_drop]; omega)]
        · dsimp only
          rw [ih j _ _ (by omega) (by omega)]

/-- A block is got, and what is left behind it. -/
theorem xsgetn_of_hasGet {b : BinStreamBuf δ} (hg : b.hasGet) {n s : Nat} (hn : 0 < n)
    (hs : min n (b.egptr - b.gptr) = s) :
    b.xsgetn v n = (b.bytesAt b.gptr s ++ ((b.gbump (toInt32 s)).xsgetn v (n - s)).1,
      ((b.gbump (toInt32 s)).xsgetn v (n - s)).2) := by
  have hlt := hasGet_iff.mp hg
  cases n with
  | zero => omega
  | succ n =>
    rw [xsgetn, xsgetnLoop, if_neg (Nat.succ_ne_zero n), if_pos hg, hs]
    dsimp only
    rw [xsgetnLoop_rounds (by omega)]

theorem xsgetn_of_not {b : BinStreamBuf δ} (hg : ¬b.hasGet) (n : Nat) :
    b.xsgetn v (n + 1) = if (b.uflow v).1 < 0 then ([], (b.uflow v).2)
      else (UInt8.ofNat (b.uflow v).1.toNat :: ((b.uflow v).2.xsgetn v n).1,
        ((b.uflow v).2.xsgetn v n).2) := by
  rw [xsgetn, xsgetnLoop, if_neg (Nat.succ_ne_zero n), if_neg hg]
  rfl

theorem xsputn_of_hasPut {b : BinStreamBuf δ} (hg : b.hasPut) {bs : List UInt8} {s : Nat}
    (hn : 0 < bs.length) (hs : min bs.length (b.epptr - b.pptr) = s) :
    b.xsputn v bs = (s + ((b.copyIn (bs.take s)).xsputn v (bs.drop s)).1,
      ((b.copyIn (bs.take s)).xsputn v (bs.drop s)).2) := by
  have hlt := hasPut_iff.mp hg
  cases bs with
  | nil => exact absurd hn (Nat.lt_irrefl 0)
  | cons x xs =>
    have hl : (x :: xs).length = xs.length + 1 := rfl
    rw [xsputn, hl, xsputnLoop, if_pos hg, hs]
    dsimp only
    rw [xsputnLoop_rounds (by rw [List.length_drop]; omega)]

theorem xsputn_of_not {b : BinStreamBuf δ} (hg : ¬b.hasPut) (x : UInt8) (xs : List UInt8) :
    b.xsputn v (x :: xs) = if (v.overflow b x.toNat).1 < 0 then (0, (v.overflow b x.toNat).2)
      else (((v.overflow b x.toNat).2.xsputn v xs).1 + 1,
        ((v.overflow b x.toNat).2.xsputn v xs).2) := by
  rw [xsputn, List.length_cons, xsputnLoop, if_neg hg]
  rfl

/-- A bulk get starts with a single byte, if its first block is not longer than an `int` can
say. -/
theorem xsgetn_succ {b : BinStreamBuf δ} {n : Nat}
    (hw : min (n + 1) (b.egptr - b.gptr) < 2 ^ 31) :
    b.xsgetn v (n + 1) = if (b.sbumpc v).1 < 0 then ([], (b.sbumpc v).2)
      else (UInt8.ofNat (b.sbumpc v).1.toNat :: ((b.sbumpc v).2.xsgetn v n).1,
        ((b.sbumpc v).2.xsgetn v n).2) := by
  by_cases hg : b.hasGet
  · obtain ⟨t, ht⟩ : ∃ t, min (n + 1) (b.egptr - b.gptr) = t + 1 :=
      Nat.exists_eq_succ_of_ne_zero (by have hlt := hasGet_iff.mp hg; omega)
    have hp : (b.gbump 1).gptr = b.gptr + 1 := gptr_gbump hg 1
    have he := egptr_gbump b 1
    have hc : ¬(((b.byteAt b.gptr).toNat : Int) < 0) := by omega
    have hint : toInt32 (t + 1 : Nat) = (t + 1 : Nat) := toInt32_of_lt _ (by omega) (by omega)
    rw [@xsgetn_of_hasGet δ v b hg (n + 1) (t + 1) (Nat.zero_lt_succ n) ht,
      sbumpc_of_hasGet hg, hint, gbump_succ, bytesAt, Nat.add_sub_add_right, List.cons_append]
    simp only [if_neg hc, Int.toNat_natCast, UInt8.ofNat_toNat, Prod.mk.injEq, List.cons.injEq,
      true_and]
    by_cases h0 : t = 0
    · rw [h0, gbump_zero]
      exact ⟨rfl, rfl⟩
    · have hg' : (b.gbump 1).hasGet := hasGet_iff.mpr (by omega)
      have hint' : toInt32 (t : Nat) = (t : Nat) := toInt32_of_lt _ (by omega) (by omega)
      rw [@xsgetn_of_hasGet δ v (b.gbump 1) hg' n t (by omega) (by omega), hint',
        bytesAt_gbump, hp]
      exact ⟨rfl, rfl⟩
  · rw [xsgetn_of_not hg, sbumpc_of_not hg]

/-- A bulk put starts with a single byte, if its first block is not longer than an `int` can
say. -/
theorem xsputn_cons {b : BinStreamBuf δ} {x : UInt8} {xs : List UInt8}
    (hw : min (xs.length + 1) (b.epptr - b.pptr) < 2 ^ 31) :
    b.xsputn v (x :: xs) = if (b.sputc v x).1 < 0 then (0, (b.sputc v x).2)
      else (((b.sputc v x).2.xsputn v xs).1 + 1, ((b.sputc v x).2.xsputn v xs).2) := by
  by_cases hg : b.hasPut
  · obtain ⟨t, ht⟩ : ∃ t, min (xs.length + 1) (b.epptr - b.pptr) = t + 1 :=
      Nat.exists_eq_succ_of_ne_zero (by have hlt := hasPut_iff.mp hg; omega)
    have hp := @pptr_copyIn δ b (isSome_of_hasPut hg) [x] (by rw [List.length_singleton]; omega)
    have he := epptr_copyIn b [x]
    have hc : ¬((x.toNat : Int) < 0) := by omega
    rw [List.length_singleton] at hp
    rw [@xsputn_of_hasPut δ v b hg (x :: xs) (t + 1) (Nat.zero_lt_succ _) ht, sputc_of_hasPut hg,
      List.take_succ_cons, List.drop_succ_cons]
    simp only [if_neg hc, Prod.mk.injEq]
    by_cases h0 : t = 0
    · subst h0
      simp only [List.take_zero, List.drop_zero, Nat.zero_add, Nat.add_comm 1, and_self]
    · have hl : (xs.take t).length = t := by
        rw [List.length_take]
        omega
      have hg' : (b.copyIn [x]).hasPut := hasPut_iff.mpr (by omega)
      rw [@copyIn_cons δ b hg x (xs.take t) (by omega),
        @xsputn_of_hasPut δ v (b.copyIn [x]) hg' xs t (by omega) (by omega)]
      constructor
      · dsimp only
        omega
      · rfl
  · rw [xsputn_of_not hg, sputc_of_not hg]

variable {Q : Nat → BinStreamBuf δ → Prop}

/-- A bulk get is one of single bytes, as long as no block is longer than an `int` can say. -/
theorem xsgetn_eq_getEach (hw : ∀ n b, Q n b → min n (b.egptr - b.gptr) < 2 ^ 31)
    (hq : ∀ n b, Q (n + 1) b → Q n (b.sbumpc v).2) {b : BinStreamBuf δ} {n : Nat} (h : Q n b) :
    b.xsgetn v n = getEach v n b := by
  induction n generalizing b with
  | zero => rfl
  | succ n ih => rw [xsgetn_succ (hw _ b h), getEach, ih (hq n b h)]

/-- A bulk put is one of single bytes, as long as no block is longer than an `int` can say. -/
theorem xsputn_eq_putEach (hw : ∀ n b, Q n b → min n (b.epptr - b.pptr) < 2 ^ 31)
    (hq : ∀ n b x, Q (n + 1) b → Q n (b.sputc v x).2) {b : BinStreamBuf δ} {bs : List UInt8}
    (h : Q bs.length b) : b.xsputn v bs = putEach v bs b := by
  induction bs generalizing b with
  | nil => rfl
  | cons x xs ih => rw [xsputn_cons (hw _ b h), putEach, ih (hq xs.length b x h)]

end Bulk

/-! ### What single bytes keep -/

section Keeps

variable {I : BinStreamBuf δ → Prop}

theorem getEach_keeps (h : ∀ b, I b → I (b.sbumpc v).2) (n : Nat) {b : BinStreamBuf δ} (hb : I b) :
    I (getEach v n b).2 := by
  induction n generalizing b with
  | zero => exact hb
  | succ n ih =>
    rw [getEach]
    dsimp only
    split
    · exact h b hb
    · exact ih (h b hb)

theorem skip_keeps (h : ∀ b, I b → I (b.sbumpc v).2) (n : Nat) {b : BinStreamBuf δ} (hb : I b) :
    I (skip v n b) := by
  induction n generalizing b with
  | zero => exact hb
  | succ n ih => exact ih (h b hb)

theorem putEach_keeps (h : ∀ b x, I b → I (b.sputc v x).2) (bs : List UInt8)
    {b : BinStreamBuf δ} (hb : I b) : I (putEach v bs b).2 := by
  induction bs generalizing b with
  | nil => exact hb
  | cons x xs ih =>
    rw [putEach]
    dsimp only
    split
    · exact h b x hb
    · exact ih (h b x hb)

theorem putZeros_keeps (h : ∀ b x, I b → I (b.sputc v x).2) (n : Nat) {b : BinStreamBuf δ}
    (hb : I b) : I (putZeros v n b) := by
  induction n generalizing b with
  | zero => exact hb
  | succ n ih => exact ih (h b 0 hb)

end Keeps

/-! ### Laws of a subclass -/

/-- `K b acc` relates a buffer to all bytes put so far, and single bytes keep it so. -/
structure PutLaw (v : Overrides δ) (K : BinStreamBuf δ → List UInt8 → Prop) : Prop where
  kept : ∀ {b acc} x, K b acc → 0 ≤ (b.sputc v x).1 → K (b.sputc v x).2 (acc ++ [x])
  refused : ∀ {b acc} x, K b acc → (b.sputc v x).1 < 0 → K (b.sputc v x).2 acc

/-- Every byte is refused. -/
def Refuses (v : Overrides δ) (b : BinStreamBuf δ) : Prop := ∀ x, (b.sputc v x).1 < 0

/-- A buffer that has refused a byte refuses all from then on. -/
structure FirmPutLaw (v : Overrides δ) (K : BinStreamBuf δ → List UInt8 → Prop) : Prop
    extends PutLaw v K where
  firm : ∀ {b acc} x, K b acc → (b.sputc v x).1 < 0 → Refuses v (b.sputc v x).2

/-- `K b p` relates a buffer to the number of bytes got so far from a content of which the next
ones are got one by one. -/
structure GetLaw (v : Overrides δ) (content : List UInt8) (K : BinStreamBuf δ → Nat → Prop) :
    Prop where
  got : ∀ {b p}, K b p → (h : p < content.length) →
    (b.sbumpc v).1 = (content[p].toNat : Int) ∧ K (b.sbumpc v).2 (p + 1)

/-- What was put of a list of bytes are the first of them. -/
theorem PutLaw.putEach {K : BinStreamBuf δ → List UInt8 → Prop} (hl : PutLaw v K)
    {b : BinStreamBuf δ} {acc : List UInt8} (h : K b acc) (bs : List UInt8) :
    K (putEach v bs b).2 (acc ++ bs.take (putEach v bs b).1) := by
  induction bs generalizing b acc with
  | nil =>
    rw [BinStreamBuf.putEach, List.take_nil, List.append_nil]
    exact h
  | cons x xs ih =>
    rw [BinStreamBuf.putEach]
    dsimp only
    split
    · next hc =>
      rw [List.take_zero, List.append_nil]
      exact hl.refused x h hc
    · next hc =>
      have hx := ih (hl.kept x h (by omega))
      rw [List.append_assoc, List.singleton_append] at hx
      rwa [List.take_succ_cons]

namespace FirmPutLaw

variable {K : BinStreamBuf δ → List UInt8 → Prop}

theorem putZeros_refuses (hl : FirmPutLaw v K) {b : BinStreamBuf δ} {acc : List UInt8}
    (h : K b acc) (hr : Refuses v b) (n : Nat) : Refuses v (putZeros v n b) := by
  induction n generalizing b with
  | zero => exact hr
  | succ n ih => exact ih (hl.refused 0 h (hr 0)) (hl.firm 0 h (hr 0))

/-- Padding is put in full, or nothing more can be put. -/
theorem putZeros (hl : FirmPutLaw v K) {b : BinStreamBuf δ} {acc : List UInt8} (h : K b acc)
    (n : Nat) :
    K (putZeros v n b) (acc ++ List.replicate n 0) ∨ Refuses v (putZeros v n b) := by
  induction n generalizing b acc with
  | zero =>
    left
    rw [List.replicate_zero, List.append_nil]
    exact h
  | succ n ih =>
    rw [BinStreamBuf.putZeros, List.replicate_succ]
    by_cases hc : (b.sputc v 0).1 < 0
    · right
      exact hl.putZeros_refuses (hl.refused 0 h hc) (hl.firm 0 h hc) n
    · have hx := ih (hl.kept 0 h (by omega))
      rwa [List.append_assoc, List.singleton_append] at hx

/-- Where bytes are put in full behind padding, the padding is there in full too. -/
theorem putZeros_putEach (hl : FirmPutLaw v K) {b : BinStreamBuf δ} {acc : List UInt8}
    (h : K b acc) {n : Nat} {bs : List UInt8} (h0 : 0 < bs.length)
    (hfull : bs.length ≤ (putEach v bs (BinStreamBuf.putZeros v n b)).1) :
    K (putEach v bs (BinStreamBuf.putZeros v n b)).2 (acc ++ List.replicate n 0 ++ bs) := by
  rcases hl.putZeros h n with hk | hr
  · have hx := hl.putEach hk bs
    rwa [List.take_of_length_le hfull] at hx
  · exfalso
    cases bs with
    | nil => exact Nat.lt_irrefl 0 h0
    | cons x xs =>
      rw [putEach, if_pos (hr x)] at hfull
      exact absurd hfull (Nat.not_succ_le_zero _)

end FirmPutLaw

namespace GetLaw

variable {content : List UInt8} {K : BinStreamBuf δ → Nat → Prop}

/-- Bytes are got in order. -/
theorem getEach (hl : GetLaw v content K) {b : BinStreamBuf δ} {p n : Nat} (h : K b p)
    (hn : p + n ≤ content.length) :
    (getEach v n b).1 = Block.read content p n ∧ K (getEach v n b).2 (p + n) := by
  induction n generalizing b p with
  | zero => exact ⟨(Block.read_zero content p).symm, h⟩
  | succ n ih =>
    rcases hl.got h (by omega) with ⟨hc, hk⟩
    have hx := ih hk (by omega)
    have h0 : ¬((content[p].toNat : Int) < 0) := by omega
    rw [BinStreamBuf.getEach]
    simp only [hc, if_neg h0, Int.toNat_natCast, UInt8.ofNat_toNat]
    rw [Block.read_succ _ _ _ (by omega), hx.1]
    constructor
    · rfl
    · rw [← Nat.add_assoc, Nat.add_right_comm]
      exact hx.2

/-- Padding is skipped. -/
theorem skip (hl : GetLaw v content K) {b : BinStreamBuf δ} {p n : Nat} (h : K b p)
    (hn : p + n ≤ content.length) : K (skip v n b) (p + n) := by
  induction n generalizing b p with
  | zero => exact h
  | succ n ih =>
    rw [BinStreamBuf.skip, ← Nat.add_assoc, Nat.add_right_comm]
    exact ih (hl.got h (by omega)).2 (by omega)

end GetLaw

/-- Padding reaches up to the next multiple behind the begin of the area. -/
theorem padding_eq {beg next n : Nat} (hn : 0 < n) (h : beg ≤ next) :
    padding beg next n = roundUp n (next - beg) - (next - beg) := by
  have hs : (next : Int) - beg = (next - beg : Nat) := by omega
  have hm := Nat.mod_lt (next - beg) hn
  rw [padding, hs, ← Int.ofNat_tmod, roundUp_eq _ hn]
  by_cases h0 : (next - beg) % n = 0
  · rw [if_neg (by omega), if_pos h0, Nat.sub_self]
  · rw [if_pos (by omega), if_neg h0]
    omega

theorem padding_one (beg next : Nat) : padding beg next 1 = 0 := by
  rw [padding, Nat.cast_one, Int.tmod_one]
  rfl

end CtrlrFx.Io.BinStreamBuf
