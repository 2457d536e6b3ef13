import CtrlrFx.DistObj.Srvr
import Mathlib.Data.List.Induction

/-!
# Header resynchronisation

What `get_pkt_hdr` finds in a stream of bytes, however they arrive. It reads pairs of bytes
until it meets a `'C'` in second place, and single bytes from then on. The `'C'` then stays in
first place for good, so that a later `'X'` completes the magic whatever stands before it.
-/

namespace CtrlrFx.DistObj
open Base Data Io

/-- Number of bytes up to the end of what the scan takes for the magic, where `snd` is what
its second byte held before. -/
def found (snd : UInt8) : List UInt8 → Option Nat
  | [] => none
  | [a] => if a = magicC ∧ snd = magicX then some 1 else none
  | a :: b :: t =>
    if b = magicC then (t.idxOf? magicX).map (· + 3)
    else if a = magicC ∧ b = magicX then some 2
    else (found b t).map (· + 2)

/-- No `'X'` stands behind a `'C'` at an odd offset, or next to one at an even offset. -/
def Clean (g : List UInt8) : Prop :=
  ∀ m j, m < j → g[m]? = some magicC → g[j]? = some magicX → m % 2 = 0 ∧ j ≠ m + 1

/-- The bytes end in the middle of a pair, whose `'C'` finds an `'X'` of the pair before it in
second place. -/
def Ghost (snd : UInt8) (g : List UInt8) : Prop :=
  g.length % 2 = 1 ∧ [magicX, magicC] <:+ snd :: g

theorem clean_of_length_le {g : List UInt8} (h : g.length ≤ 1) : Clean g := by
  intro m j hmj _ hj
  obtain ⟨hlt, -⟩ := List.getElem?_eq_some_iff.mp hj
  omega

/-- Taking a pair off the front. -/
theorem clean_cons_cons {a b : UInt8} {t : List UInt8} :
    Clean (a :: b :: t) ↔
      ¬(a = magicC ∧ b = magicX) ∧ (b = magicC → magicX ∉ t) ∧ Clean t := by
  constructor
  · intro h
    refine ⟨fun ⟨ha, hb⟩ ↦ ?_, fun hb hx ↦ ?_, fun m j hmj hm hj ↦ ?_⟩
    · exact (h 0 1 Nat.zero_lt_one (congrArg some ha) (congrArg some hb)).2 rfl
    · obtain ⟨j, hj⟩ := List.getElem?_of_mem hx
      exact absurd (h 1 (j + 2) (by omega) (congrArg some hb) hj).1 (by decide)
    · obtain ⟨h1, h2⟩ := h (m + 2) (j + 2) (by omega) hm hj
      exact ⟨by omega, by omega⟩
  · rintro ⟨hab, hb, ht⟩ m j hmj hm hj
    match m, j with
    | 0, 1 => exact absurd ⟨Option.some.inj hm, Option.some.inj hj⟩ hab
    | 0, j + 2 => exact ⟨rfl, by omega⟩
    | 1, j + 2 =>
      have hx : t[j]? = some magicX := hj
      exact absurd (List.mem_of_getElem? hx) (hb (Option.some.inj hm))
    | m + 2, j + 2 =>
      obtain ⟨h1, h2⟩ := ht m j (by omega) hm hj
      exact ⟨by omega, by omega⟩

theorem ghost_cons_cons {snd a b : UInt8} {t : List UInt8} :
    Ghost snd (a :: b :: t) ↔ Ghost b t := by
  cases t with
  | nil => exact ⟨fun h ↦ absurd h.1 (by simp), fun h ↦ absurd h.1 (by simp)⟩
  | cons c t =>
    have hs : [magicX, magicC] <:+ snd :: a :: b :: c :: t ↔ [magicX, magicC] <:+ b :: c :: t := by
      simp [List.suffix_cons_iff]
    have hl : (a :: b :: c :: t).length % 2 = 1 ↔ (c :: t).length % 2 = 1 := by
      simp only [List.length_cons]
      omega
    rw [Ghost, Ghost, hs, hl]

theorem clean_of_notMem {g : List UInt8} (h : magicX ∉ g) : Clean g :=
  fun _ _ _ _ hj ↦ absurd (List.mem_of_getElem? hj) h

/-- The single bytes read behind a `'C'` end at the first `'X'`. -/
theorem idxOf?_append_of_notMem {g : List UInt8} (h : magicX ∉ g) (t : List UInt8) :
    (g ++ magicX :: t).idxOf? magicX = some g.length := by
  rw [List.idxOf?_eq_some_iff]
  refine ⟨by simp, by simp, fun j hj ↦ ?_⟩
  rw [List.getElem_append_left hj]
  exact fun he ↦ h (he ▸ List.getElem_mem hj)

/-- The scan passes over clean bytes and finds the magic behind them. -/
theorem found_append (snd : UInt8) {g : List UInt8} (h : Clean g) (t : List UInt8) :
    found snd (g ++ magicC :: magicX :: t) = some (g.length + 2) := by
  induction g using List.twoStepInduction generalizing snd with
  | nil => rfl
  | singleton a => rfl
  | cons_cons a b g ih =>
    obtain ⟨hab, hb, hg⟩ := clean_cons_cons.mp h
    rw [List.cons_append, List.cons_append, found, if_neg hab, List.length_cons, List.length_cons]
    split
    · next hc =>
      have hx : magicX ∉ g ++ [magicC] := by
        simpa [List.mem_append, magicC, magicX] using hb hc
      have := idxOf?_append_of_notMem hx t
      rw [List.append_assoc, List.singleton_append, List.length_append,
        List.length_singleton] at this
      rw [this]
      rfl
    · rw [ih _ hg]
      rfl

/-- If nothing comes behind clean bytes, the scan finds only a ghost. -/
theorem found_clean {snd : UInt8} {g : List UInt8} (h : Clean g) :
    (Ghost snd g → found snd g = some g.length) ∧ (¬Ghost snd g → found snd g = none) := by
  induction g using List.twoStepInduction generalizing snd with
  | nil => exact ⟨fun hg ↦ absurd hg.1 (by decide), fun _ ↦ rfl⟩
  | singleton a =>
    have hg : Ghost snd [a] ↔ a = magicC ∧ snd = magicX := by
      unfold Ghost
      constructor
      · rintro ⟨-, h⟩
        have := h.eq_of_length rfl
        simp only [List.cons.injEq, and_true] at this
        exact ⟨this.2.symm, this.1.symm⟩
      · rintro ⟨rfl, rfl⟩
        exact ⟨rfl, List.suffix_refl _⟩
    rw [hg]
    exact ⟨fun hc ↦ if_pos hc, fun hc ↦ if_neg hc⟩
  | cons_cons a b g ih =>
    obtain ⟨hab, hb, hg⟩ := clean_cons_cons.mp h
    rw [ghost_cons_cons, found, if_neg hab, List.length_cons, List.length_cons]
    split
    · next hc =>
      have hn : ¬Ghost b g := by
        rintro ⟨-, hs⟩
        have hx : magicX ∈ b :: g := hs.subset (List.mem_cons_self ..)
        rw [hc, List.mem_cons] at hx
        exact hx.elim (by decide) (hb hc)
      rw [List.idxOf?_eq_none_iff.mpr (hb hc)]
      exact ⟨fun h ↦ absurd h hn, fun _ ↦ rfl⟩
    · obtain ⟨h1, h2⟩ := @ih b hg
      exact ⟨fun h ↦ by rw [h1 h]; rfl, fun h ↦ by rw [h2 h]; rfl⟩

/-- In bytes that are not clean the scan finds a magic, whatever follows them. -/
theorem found_of_not_clean (snd : UInt8) {g : List UInt8} (h : ¬Clean g) (t : List UInt8) :
    ∃ j, 2 ≤ j ∧ j ≤ g.length ∧ found snd (g ++ t) = some j := by
  induction g using List.twoStepInduction generalizing snd with
  | nil => exact absurd (clean_of_length_le (Nat.zero_le _)) h
  | singleton a => exact absurd (clean_of_length_le (Nat.le_refl _)) h
  | cons_cons a b g ih =>
    rw [List.cons_append, List.cons_append, found, List.length_cons, List.length_cons]
    by_cases hc : b = magicC
    · rw [if_pos hc]
      have hx : magicX ∈ g := by
        by_contra hx
        refine h (clean_cons_cons.mpr ⟨fun hab ↦ ?_, fun _ ↦ hx, clean_of_notMem hx⟩)
        exact absurd (hc.symm.trans hab.2) (by decide)
      obtain ⟨u, v, rfl, hu⟩ := List.eq_append_cons_of_mem hx
      rw [List.append_assoc, List.cons_append, idxOf?_append_of_notMem hu, List.length_append,
        List.length_cons]
      exact ⟨u.length + 3, by omega, by omega, rfl⟩
    · rw [if_neg hc]
      by_cases hab : a = magicC ∧ b = magicX
      · rw [if_pos hab]
        exact ⟨2, Nat.le_refl _, by omega, rfl⟩
      · rw [if_neg hab]
        have hg : ¬Clean g := fun hg ↦ h (clean_cons_cons.mpr ⟨hab, fun hb ↦ absurd hb hc, hg⟩)
        obtain ⟨j, -, hj, hf⟩ := @ih b hg
        exact ⟨j + 2, by omega, by omega, by rw [hf]; rfl⟩

theorem found_eq_none_iff {snd : UInt8} {g : List UInt8} :
    found snd g = none ↔ Clean g ∧ ¬Ghost snd g := by
  constructor
  · intro hf
    have hc : Clean g := by
      by_contra hc
      obtain ⟨j, -, -, hj⟩ := found_of_not_clean snd hc []
      rw [List.append_nil, hf] at hj
      cases hj
    refine ⟨hc, fun hg ↦ ?_⟩
    rw [(found_clean hc).1 hg] at hf
    cases hf
  · rintro ⟨hc, hg⟩
    exact (found_clean hc).2 hg

/-! ### The loop -/

/-- The scan came to its end `k` bytes on, or to the end of the stream. -/
structure Scanned (o : Option Nat) (p : Port) (r : Bool × Port) : Prop where
  fst : r.1 = o.isSome
  past : Port.Past p (o.getD p.pending.length) r.2

theorem Scanned.of_past {o : Option Nat} {p p' : Port} {r : Bool × Port} {j : Nat}
    (hp : Port.Past p j p') (h : Scanned o p' r) : Scanned (o.map (· + j)) p r := by
  refine ⟨h.fst.trans Option.isSome_map.symm, ?_⟩
  have hpast := hp.trans h.past
  have hle := hp.le
  cases o with
  | some i => rwa [Option.map_some, Option.getD_some, Nat.add_comm]
  | none =>
    rw [Option.getD_none, hp.pending, List.length_drop] at hpast
    rwa [Option.map_none, Option.getD_none, ← Nat.add_sub_of_le hle]

theorem scanned_of_ret {k nx : Nat} {m : Magic} {p : Port} (he : p.Ended) (hn : nx < 2)
    (hp : p.pending = []) : Scanned none p (scan false (k + 1) m nx p) := by
  obtain ⟨-, ht, -⟩ := Port.readN_spec (p := p) (n := 2 - nx) (.inr he)
  have hr : (p.readN (2 - nx)).ret ≤ 0 := by
    by_contra hc
    exact (Port.readN_ret_pos_iff (n := 2 - nx) he (by omega) (by omega)).mp (by omega) hp
  rw [scan]
  dsimp only
  rw [if_pos hr]
  have := ht.past
  rw [hp, List.length_nil, Nat.min_zero] at this
  refine ⟨rfl, ?_⟩
  rwa [Option.getD_none, hp]

/-- Behind a `'C'` the loop reads single bytes up to an `'X'`. -/
theorem scan_single {k : Nat} {m : Magic} {p : Port} (hm : m.fst = magicC) (he : p.Ended)
    (hk : p.pending.length < k) :
    Scanned ((p.pending.idxOf? magicX).map (· + 1)) p (scan false k m 1 p) := by
  induction k generalizing m p with
  | zero => omega
  | succ k ih =>
    cases hp : p.pending with
    | nil => exact scanned_of_ret he (by decide) hp
    | cons b t =>
      obtain ⟨hb, ht, -⟩ := Port.readN_spec (p := p) (n := 1) (.inr he)
      have hpast := ht.past
      rw [hp] at hb hpast hk
      rw [List.length_cons, Nat.min_eq_left (by omega)] at hpast
      have hret := (Port.readN_ret_pos_iff he Nat.one_pos (by decide)).mpr
        (hp ▸ List.cons_ne_nil b t)
      have hpend : (p.readN 1).port.pending = t := by rw [hpast.pending, hp]; rfl
      have hstep (m' : Magic) (hm' : m'.fst = magicC) :
          Scanned ((t.idxOf? magicX).map (· + 1 + 1)) p (scan false k m' 1 (p.readN 1).port) := by
        have := (@ih m' (p.readN 1).port hm' (hpast.ended he)
          (by rw [hpend]; simpa using hk)).of_past hpast
        rwa [hpend, Option.map_map] at this
      have hb1 : (p.readN 1).bytes = [b] := hb
      rw [scan, show 2 - 1 = 1 from rfl]
      dsimp only
      rw [if_neg (by omega), hb1, Magic.store_snd, List.idxOf?_cons]
      by_cases hC : b = magicC
      · have hX : ¬(b == magicX) = true := by simp [hC, magicC, magicX]
        rw [Magic.shift_of_eq hC, if_neg hX, if_pos ⟨by decide, rfl⟩, Option.map_map]
        exact hstep _ rfl
      · rw [Magic.shift_of_ne hC]
        by_cases hX : b = magicX
        · rw [if_pos (beq_iff_eq.mpr hX), if_neg (by simp [hm, hX])]
          exact ⟨rfl, hpast⟩
        · rw [if_neg (fun h ↦ hX (beq_iff_eq.mp h)), Option.map_map,
            if_pos ⟨fun h ↦ hX (congrArg Magic.snd h), rfl⟩]
          exact hstep _ hm

/-- One round of reading a pair, of which only one byte may be left. -/
theorem readN_pair {p : Port} {a : UInt8} {s : List UInt8} (he : p.Ended)
    (hp : p.pending = a :: s) :
    (p.readN 2).bytes = a :: s.take 1 ∧ 0 < (p.readN 2).ret ∧
      Port.Past p (min 2 (s.length + 1)) (p.readN 2).port ∧
      (p.readN 2).port.pending = s.drop 1 := by
  obtain ⟨hb, ht, -⟩ := Port.readN_spec (p := p) (n := 2) (.inr he)
  have hpast := ht.past
  have hret := (Port.readN_ret_pos_iff he Nat.two_pos (by decide)).mpr (hp ▸ List.cons_ne_nil a s)
  rw [hp] at hb hpast
  exact ⟨hb, hret, hpast, by rw [ht.pending, hp]; rfl⟩

/-- What the loop of `get_pkt_hdr` finds. -/
theorem scan_pairs {k : Nat} {m : Magic} {p : Port} (he : p.Ended)
    (hk : p.pending.length < k) :
    Scanned (found m.snd p.pending) p (scan false k m 0 p) := by
  induction hp : p.pending using List.twoStepInduction generalizing k m p with
  | nil =>
    obtain ⟨k, rfl⟩ := Nat.exists_eq_add_one_of_ne_zero (by omega : k ≠ 0)
    exact scanned_of_ret he (by decide) hp
  | singleton a =>
    obtain ⟨k, rfl⟩ := Nat.exists_eq_add_one_of_ne_zero (by omega : k ≠ 0)
    obtain ⟨hb, hret, hpast, hpend⟩ := readN_pair he hp
    rw [hp, List.length_singleton] at hk
    obtain ⟨k, rfl⟩ := Nat.exists_eq_add_one_of_ne_zero (by omega : k ≠ 0)
    have hend (m' : Magic) (nx : Nat) (hn : nx < 2) :
        Scanned none p (scan false (k + 1) m' nx (p.readN 2).port) :=
      (scanned_of_ret (hpast.ended he) hn hpend).of_past hpast
    have hb1 : (p.readN 2).bytes = [a] := hb
    rw [scan, Nat.sub_zero]
    dsimp only
    rw [if_neg (by omega), hb1, Magic.store_one, found]
    by_cases hC : m.snd = magicC
    · have hX : ¬(a = magicC ∧ m.snd = magicX) := fun h ↦ absurd (hC.symm.trans h.2) (by decide)
      rw [Magic.shift_of_eq (m := { fst := a, snd := m.snd }) hC, if_neg hX,
        if_pos ⟨by decide, rfl⟩]
      exact hend _ _ (by decide)
    · rw [Magic.shift_of_ne (m := { fst := a, snd := m.snd }) hC]
      by_cases hX : a = magicC ∧ m.snd = magicX
      · rw [if_pos hX, if_neg (by simp [hX])]
        exact ⟨rfl, hpast⟩
      · rw [if_neg hX, if_pos ⟨fun h ↦ hX ⟨congrArg Magic.fst h, congrArg Magic.snd h⟩, rfl⟩]
        exact hend _ _ Nat.two_pos
  | cons_cons a b t ih =>
    obtain ⟨k, rfl⟩ := Nat.exists_eq_add_one_of_ne_zero (by omega : k ≠ 0)
    obtain ⟨hb, hret, hpast, hpend⟩ := readN_pair he hp
    rw [List.length_cons, Nat.min_eq_left (by omega)] at hpast
    have hkt : (p.readN 2).port.pending.length < k := by
      rw [hp, List.length_cons, List.length_cons] at hk
      rw [hpend, List.drop_succ_cons, List.drop_zero]
      omega
    have hb2 : (p.readN 2).bytes = [a, b] := hb
    rw [scan, Nat.sub_zero]
    dsimp only
    rw [if_neg (by omega), hb2, Magic.store_two, found]
    by_cases hC : b = magicC
    · rw [Magic.shift_of_eq hC, if_pos hC, if_pos ⟨by decide, rfl⟩]
      have := (scan_single (m := { fst := magicC, snd := 0 }) rfl (hpast.ended he)
        hkt).of_past hpast
      rwa [hpend, Option.map_map] at this
    · rw [Magic.shift_of_ne hC, if_neg hC]
      by_cases hX : a = magicC ∧ b = magicX
      · rw [if_pos hX, if_neg (by simp [hX])]
        exact ⟨rfl, hpast⟩
      · rw [if_neg hX, if_pos ⟨fun h ↦ hX ⟨congrArg Magic.fst h, congrArg Magic.snd h⟩, rfl⟩]
        exact (ih (m := { fst := a, snd := b }) (hpast.ended he) hkt hpend).of_past hpast

/-! ### The header -/

/-- Six more bytes complete a header. -/
theorem PktHdr.store_complete (h : PktHdr) {bs : List UInt8} (hb : bs.length = 6) :
    ((h.store 0 [magicC, magicX]).store 2 bs).bytes = magicC :: magicX :: bs := by
  have hs := h.size_eq
  have hl : ([magicC, magicX] ++ bs).length = 8 := by simp [hb]
  refine (Block.write_append h.bytes 0 [magicC, magicX] bs).symm.trans ?_
  rw [Block.write_eq _ _ _ (by omega), hl, List.drop_eq_nil_of_le (by omega), List.append_nil,
    List.take_zero, List.nil_append]
  rfl

theorem getPktHdr_none {m : Magic} {p : Port} (he : p.Ended)
    (hf : found m.snd p.pending = none) (h : PktHdr) :
    (getPktHdr false m p h).1 = -1 ∧ (getPktHdr false m p h).2.1 = h ∧
      Port.Past p p.pending.length (getPktHdr false m p h).2.2 := by
  have hk := p.length_pending_le
  obtain ⟨h1, h2⟩ := scan_pairs (k := p.coming + 1) (m := m) he (by omega)
  rw [hf] at h1 h2
  unfold getPktHdr
  simp only [h1, Option.isSome_none, Bool.not_false, if_true]
  exact ⟨trivial, trivial, h2⟩

theorem getPktHdr_some {m : Magic} {p : Port} {j : Nat} (he : p.Ended)
    (hf : found m.snd p.pending = some j) (h : PktHdr) :
    (getPktHdr false m p h).2.1 =
        (h.store 0 [magicC, magicX]).store 2 ((p.pending.drop j).take 6) ∧
      Port.Past p (min (j + 6) p.pending.length) (getPktHdr false m p h).2.2 ∧
      (j < p.pending.length ∨ p.stops = [] → (getPktHdr false m p h).1 = 0) ∧
      (scan false (p.coming + 1) m 0 p).2.taken = p.taken + j := by
  have hk := p.length_pending_le
  obtain ⟨h1, h2⟩ := scan_pairs (k := p.coming + 1) (m := m) he (by omega)
  rw [hf] at h1 h2
  rw [Option.getD_some] at h2
  obtain ⟨hb, ht, hr⟩ := Port.readN_spec (n := 6) (.inr (h2.ended he))
  unfold getPktHdr
  simp only [h1, Option.isSome_some, Bool.not_true, Bool.false_eq_true, if_false]
  refine ⟨by rw [hb, h2.pending], ?_, fun hj ↦ ?_, h2.taken⟩
  · have := h2.trans ht.past
    have hle := h2.le
    rw [h2.pending, List.length_drop] at this
    rwa [show j + min 6 (p.pending.length - j) = min (j + 6) p.pending.length by omega] at this
  · refine if_neg ?_
    rw [hr]
    rcases hj with hj | hj
    · have hne : (scan false (p.coming + 1) m 0 p).2.pending ≠ [] := by
        rw [h2.pending]
        exact fun hc ↦ absurd (List.drop_eq_nil_iff.mp hc) (by omega)
      rw [if_neg fun hc ↦ hne hc.1, toInt32_of_lt _ (by omega) (by omega)]
      omega
    · rw [h2.stops hj]
      split
      · decide
      · rw [toInt32_of_lt _ (by omega) (by omega)]
        omega

/-! ### The first pair -/

/-- A `'C'` at index `i` with an `'X'` next to it. -/
def PairAt (s : List UInt8) (i : Nat) : Prop := s[i]? = some magicC ∧ s[i + 1]? = some magicX

/-- The first such index. -/
def FirstPair (s : List UInt8) (i : Nat) : Prop := PairAt s i ∧ ∀ j < i, ¬PairAt s j

/-- An `'X'` behind a `'C'` at an odd offset comes after a pair. -/
def InStep (s : List UInt8) : Prop :=
  ∀ m j, m % 2 = 1 → m < j → s[m]? = some magicC → s[j]? = some magicX → ∃ i < j, PairAt s i

instance (s : List UInt8) (i : Nat) : Decidable (PairAt s i) :=
  inferInstanceAs (Decidable (_ ∧ _))

theorem PairAt.drop {s : List UInt8} {i : Nat} (h : PairAt s i) :
    s.drop i = magicC :: magicX :: s.drop (i + 2) := by
  obtain ⟨h1, e1⟩ := List.getElem?_eq_some_iff.mp h.1
  obtain ⟨h2, e2⟩ := List.getElem?_eq_some_iff.mp h.2
  rw [List.drop_eq_getElem_cons h1, List.drop_eq_getElem_cons h2, e1, e2]

theorem PairAt.eq_append {s : List UInt8} {i : Nat} (h : PairAt s i) :
    s = s.take i ++ magicC :: magicX :: s.drop (i + 2) := by
  rw [← h.drop, List.take_append_drop]

/-- A pair with six more bytes is the header they complete. -/
theorem PairAt.bytes_store {s : List UInt8} {i : Nat} (h : PairAt s i) (hl : i + 8 ≤ s.length)
    (hdr : PktHdr) :
    ((hdr.store 0 [magicC, magicX]).store 2 ((s.drop (i + 2)).take 6)).bytes =
      Block.read s i 8 := by
  rw [PktHdr.store_complete hdr (by rw [List.length_take, List.length_drop]; omega), Block.read,
    h.drop]
  rfl

/-- Either there is a first pair or there is none. -/
theorem firstPair_or (s : List UInt8) : (∃ i, FirstPair s i) ∨ ∀ i, ¬PairAt s i := by
  by_cases h : ∃ i, PairAt s i
  · exact .inl ⟨Nat.find h, Nat.find_spec h, fun j hj ↦ Nat.find_min h hj⟩
  · exact .inr (not_exists.mp h)

/-- Bytes before the first pair are clean when the stream is in step. -/
theorem InStep.clean {s : List UInt8} {i : Nat} (h : InStep s) (hi : ∀ j < i, ¬PairAt s j) :
    Clean (s.take i) := by
  intro m j hmj hm hj
  have hji : j < i := by
    obtain ⟨hl, -⟩ := List.getElem?_eq_some_iff.mp hj
    rw [List.length_take] at hl
    omega
  rw [List.getElem?_take_of_lt (by omega)] at hm hj
  constructor
  · by_contra hodd
    obtain ⟨k, hk, hp⟩ := h m j (by omega) hmj hm hj
    exact hi k (by omega) hp
  · rintro rfl
    exact hi m (by omega) ⟨hm, hj⟩

/-- And conversely, if a pair or nothing follows them. -/
theorem inStep_of_clean {s : List UInt8} {i : Nat} (h : Clean (s.take i))
    (hi : PairAt s i ∨ s.length ≤ i) : InStep s := by
  intro m j hodd hmj hm hj
  obtain ⟨hl, -⟩ := List.getElem?_eq_some_iff.mp hj
  by_cases hji : j < i
  · have hc := h m j hmj (by rwa [List.getElem?_take_of_lt (by omega)])
      (by rwa [List.getElem?_take_of_lt hji])
    omega
  · have hp := hi.resolve_right (by omega)
    refine ⟨i, ?_, hp⟩
    by_contra hc
    obtain rfl : i = j := by omega
    exact absurd (Option.some.inj (hp.1.symm.trans hj)) (by decide)

/-- The scan looks for the magic just as its documentation says: if the first pair has six
more bytes behind it, a header is taken from there and the stream is left behind it, and a
header is only taken right behind a pair. -/
structure Resyncs (m : Magic) (p : Port) (h : PktHdr) : Prop where
  finds : ∀ i, FirstPair p.pending i → i + 8 ≤ p.pending.length →
    (getPktHdr false m p h).1 = 0 ∧
      (getPktHdr false m p h).2.1.bytes = Block.read p.pending i 8 ∧
      Port.Past p (i + 8) (getPktHdr false m p h).2.2
  sound : (getPktHdr false m p h).1 = 0 →
    ∃ i, PairAt p.pending i ∧ (scan false (p.coming + 1) m 0 p).2.taken = p.taken + (i + 2)

/-- On a stream in step the scan stops behind the first pair. -/
theorem found_firstPair (snd : UInt8) {s : List UInt8} {i : Nat} (hs : InStep s)
    (hi : FirstPair s i) : found snd s = some (i + 2) := by
  have hlen : (s.take i).length = i := by
    obtain ⟨hl, -⟩ := List.getElem?_eq_some_iff.mp hi.1.1
    rw [List.length_take]
    omega
  have := found_append snd (hs.clean hi.2) (s.drop (i + 2))
  rwa [← hi.1.eq_append, hlen] at this

/-- A stream without a pair that is in step and has no ghost leaves nothing to find. -/
theorem found_none {snd : UInt8} {s : List UInt8} (hs : InStep s) (hp : ∀ i, ¬PairAt s i)
    (hg : ¬Ghost snd s) : found snd s = none := by
  have hc := hs.clean (i := s.length) fun j _ ↦ hp j
  rw [List.take_length] at hc
  exact (found_clean hc).2 hg

/-- The scan resynchronises on a stream just when every `'X'` behind a `'C'` at an odd offset
comes after a pair, and a stream without a pair does not end in a ghost. -/
theorem getPktHdr_resyncs_iff (m : Magic) (p : Port) (h : PktHdr) (hp : p.stops = []) :
    Resyncs m p h ↔
      InStep p.pending ∧ ((∀ i, ¬PairAt p.pending i) → ¬Ghost m.snd p.pending) := by
  have he := Port.ended_of_stops hp
  constructor
  · intro hr
    -- whatever the scan finds is a pair, and so lies at the first pair or behind it
    have hpair {j : Nat} (hf : found m.snd p.pending = some j) :
        ∃ i, PairAt p.pending i ∧ j = i + 2 := by
      obtain ⟨-, -, h0, ht⟩ := getPktHdr_some he hf h
      obtain ⟨i, hi, ht'⟩ := hr.sound (h0 (.inr hp))
      exact ⟨i, hi, by omega⟩
    have hclean {i : Nat} (hi : ∀ j < i, ¬PairAt p.pending j) : Clean (p.pending.take i) := by
      by_contra hc
      obtain ⟨j, -, hj, hf⟩ := found_of_not_clean m.snd hc (p.pending.drop i)
      rw [List.take_append_drop] at hf
      obtain ⟨k, hk, rfl⟩ := hpair hf
      rw [List.length_take] at hj
      exact hi k (by omega) hk
    rcases firstPair_or p.pending with ⟨i, hi⟩ | hn
    · exact ⟨inStep_of_clean (hclean hi.2) (.inl hi.1), fun hn ↦ absurd hi.1 (hn i)⟩
    · have hc := hclean (i := p.pending.length) fun j _ ↦ hn j
      refine ⟨inStep_of_clean hc (.inr (Nat.le_refl _)), fun _ hg ↦ ?_⟩
      rw [List.take_length] at hc
      obtain ⟨i, hi, -⟩ := hpair ((found_clean hc).1 hg)
      exact hn i hi
  · rintro ⟨hs, hg⟩
    rcases firstPair_or p.pending with ⟨i, hi⟩ | hn
    · have hf := found_firstPair m.snd hs hi
      obtain ⟨hh, hpast, h0, ht⟩ := getPktHdr_some he hf h
      refine ⟨fun k hk hle ↦ ?_, fun _ ↦ ⟨i, hi.1, ht⟩⟩
      obtain rfl : k = i := by
        rcases Nat.lt_trichotomy k i with hlt | heq | hlt
        · exact absurd hk.1 (hi.2 k hlt)
        · exact heq
        · exact absurd hi.1 (hk.2 i hlt)
      refine ⟨h0 (.inr hp), ?_, ?_⟩
      · rw [hh, hk.1.bytes_store hle]
      · rwa [Nat.min_eq_left (by omega)] at hpast
    · obtain ⟨h1, -, -⟩ := getPktHdr_none he (found_none hs hn (hg hn)) h
      exact ⟨fun i hi ↦ absurd hi.1 (hn i), fun h0 ↦ absurd (h1.symm.trans h0) (by decide)⟩

/-- A header behind three other bytes, in three chunks. -/
theorem getPktHdr_resyncs_iff_three :
    Resyncs default (.deliver [[1, 2], [3, 67], [88, 0, 0, 12, 0, 0, 0]]) default ↔
      InStep [1, 2, 3, 67, 88, 0, 0, 12, 0, 0, 0] ∧
        ((∀ i, ¬PairAt [1, 2, 3, 67, 88, 0, 0, 12, 0, 0, 0] i) →
          ¬Ghost 0 [1, 2, 3, 67, 88, 0, 0, 12, 0, 0, 0]) :=
  getPktHdr_resyncs_iff _ _ _ rfl

/-- A `'C'` at an odd offset and an `'X'` that is not next to it pass for the magic, although
a whole header follows. -/
theorem getPktHdr_not_resyncs :
    ¬Resyncs default (.deliver [[1, 67, 2, 88, 67, 88, 0, 0, 0, 0, 0, 0]]) default := by
  intro hr
  have hfirst : FirstPair [1, 67, 2, 88, 67, 88, 0, 0, 0, 0, 0, 0] 4 := by
    unfold FirstPair
    decide
  obtain ⟨-, hh, -⟩ := hr.finds 4 hfirst (by decide)
  exact absurd hh (by decide)

end CtrlrFx.DistObj
