import Mathlib.Algebra.Order.Ring.Nat
import Mathlib.Tactic.Ring

/-!
# POSIX times

`CtrlrFx/os/posix/CtrlrFx/Time.h` and `src/os/posix/Time.cpp`: durations and times are a
`timespec`, and every sum or difference is normalised, which is to make it unique. Seconds and
nanoseconds are whole numbers that stay inside their words.
-/

namespace CtrlrFx.Os.Posix

/-- `CtrlrFx/os/posix/CtrlrFx/Time.h:94`. -/
def nsPerSec : Int := 1000000000

/-- A duration or a time; `CtrlrFx/os/posix/CtrlrFx/Time.h:57`. -/
structure Timespec where
  sec : Int
  nsec : Int
  deriving DecidableEq, Repr

namespace Timespec

/-- `CtrlrFx/os/posix/CtrlrFx/Time.h:119–121`. -/
def ticks (tm : Timespec) : Int := tm.sec * nsPerSec + tm.nsec

/-- `operator==`; `CtrlrFx/os/posix/CtrlrFx/Time.h:138–141`. -/
def eq (t1 t2 : Timespec) : Bool := t1.sec == t2.sec && t1.nsec == t2.nsec

/-- `operator<`; `CtrlrFx/os/posix/CtrlrFx/Time.h:148–151`. -/
def lt (t1 t2 : Timespec) : Bool := t1.ticks < t2.ticks

/-- The seconds and nanoseconds are those of the ticks, with the sign of these. -/
structure Canonical (tm : Timespec) : Prop where
  nsec_lt : tm.nsec < nsPerSec
  neg_lt_nsec : -nsPerSec < tm.nsec
  nsec_nonneg : 0 < tm.sec → 0 ≤ tm.nsec
  nsec_nonpos : tm.sec < 0 → tm.nsec ≤ 0

def NonNeg (tm : Timespec) : Prop := 0 ≤ tm.sec ∧ 0 ≤ tm.nsec

/-- What the system takes as an absolute time. -/
def Valid (tm : Timespec) : Prop := 0 ≤ tm.nsec ∧ tm.nsec < nsPerSec

/-- The nanoseconds are a number of seconds, of the sign that the whole has. -/
def Whole (tm : Timespec) : Prop :=
  tm.nsec % nsPerSec = 0 ∧ (0 < tm.nsec ∧ 0 < tm.ticks ∨ tm.nsec < 0 ∧ tm.ticks < 0)

instance (tm : Timespec) : Decidable tm.Whole :=
  inferInstanceAs (Decidable (_ ∧ (_ ∨ _)))

theorem eq_iff {t1 t2 : Timespec} : t1.eq t2 = true ↔ t1 = t2 := by
  rw [eq, Bool.and_eq_true, beq_iff_eq, beq_iff_eq]
  constructor
  · rintro ⟨hs, hn⟩
    cases t1
    cases t2
    cases hs
    cases hn
    rfl
  · rintro rfl
    exact ⟨rfl, rfl⟩

theorem eq_of_nsec {t1 t2 : Timespec} (ht : t1.ticks = t2.ticks) (hn : t1.nsec = t2.nsec) :
    t1 = t2 := by
  have hs : t1.sec = t2.sec := by
    simp only [ticks, nsPerSec] at ht
    omega
  cases t1
  cases t2
  cases hs
  cases hn
  rfl

theorem Canonical.valid {tm : Timespec} (h : tm.Canonical) (hn : tm.NonNeg) : tm.Valid :=
  ⟨hn.2, h.nsec_lt⟩

theorem lt_iff {t1 t2 : Timespec} : t1.lt t2 = true ↔ t1.ticks < t2.ticks := decide_eq_true_iff

/-- Canonical times are known by their ticks. -/
theorem Canonical.eq_of_ticks {t1 t2 : Timespec} (h1 : t1.Canonical) (h2 : t2.Canonical)
    (h : t1.ticks = t2.ticks) : t1 = t2 := by
  apply eq_of_nsec h
  rcases h1 with ⟨hl1, hu1, hp1, hn1⟩
  rcases h2 with ⟨hl2, hu2, hp2, hn2⟩
  simp only [ticks, nsPerSec] at *
  omega

end Timespec

/-! ### Normalising -/

/-- The loop that adjusts for large nanoseconds; `src/os/posix/Time.cpp:47–50`. -/
def adjustLarge (tm : Timespec) : Timespec :=
  if nsPerSec < tm.nsec then adjustLarge ⟨tm.sec + 1, tm.nsec - nsPerSec⟩ else tm
termination_by tm.nsec.toNat
decreasing_by
  simp only [nsPerSec] at *
  omega

/-- The loop that adjusts for large negative nanoseconds; `src/os/posix/Time.cpp:54–57`. -/
def adjustNegative (tm : Timespec) : Timespec :=
  if tm.nsec < -nsPerSec then adjustNegative ⟨tm.sec - 1, tm.nsec + nsPerSec⟩ else tm
termination_by (-tm.nsec).toNat
decreasing_by
  simp only [nsPerSec] at *
  omega

/-- `src/os/posix/Time.cpp:61–68`. -/
def adjustSign (tm : Timespec) : Timespec :=
  if 0 < tm.sec ∧ tm.nsec < 0 then ⟨tm.sec - 1, tm.nsec + nsPerSec⟩
  else if tm.sec < 0 ∧ 0 < tm.nsec then ⟨tm.sec + 1, tm.nsec - nsPerSec⟩
  else tm

/-- `src/os/posix/Time.cpp:41–69`. -/
def normalizeTimespec (tm : Timespec) : Timespec :=
  adjustSign (adjustNegative (adjustLarge tm))

/-- The first loop ends with the same ticks, above zero if it ran, and leaves a second. -/
theorem adjustLarge_spec (tm : Timespec) :
    (adjustLarge tm).ticks = tm.ticks ∧
      if nsPerSec < tm.nsec then 0 < (adjustLarge tm).nsec ∧ (adjustLarge tm).nsec ≤ nsPerSec
      else adjustLarge tm = tm := by
  induction tm using adjustLarge.induct with
  | case1 tm h ih =>
    rw [adjustLarge, if_pos h, if_pos h]
    have ht : (⟨tm.sec + 1, tm.nsec - nsPerSec⟩ : Timespec).ticks = tm.ticks := by
      simp only [Timespec.ticks]
      ring
    refine ⟨ih.1.trans ht, ?_⟩
    have hr := ih.2
    split at hr
    · exact hr
    · next hs =>
      rw [hr]
      simp only [nsPerSec] at *
      omega
  | case2 tm h =>
    rw [adjustLarge, if_neg h, if_neg h]
    exact ⟨rfl, rfl⟩

theorem adjustNegative_spec (tm : Timespec) :
    (adjustNegative tm).ticks = tm.ticks ∧
      if tm.nsec < -nsPerSec then
        (adjustNegative tm).nsec < 0 ∧ -nsPerSec ≤ (adjustNegative tm).nsec
      else adjustNegative tm = tm := by
  induction tm using adjustNegative.induct with
  | case1 tm h ih =>
    rw [adjustNegative, if_pos h, if_pos h]
    have ht : (⟨tm.sec - 1, tm.nsec + nsPerSec⟩ : Timespec).ticks = tm.ticks := by
      simp only [Timespec.ticks]
      ring
    refine ⟨ih.1.trans ht, ?_⟩
    have hr := ih.2
    split at hr
    · exact hr
    · next hs =>
      rw [hr]
      simp only [nsPerSec] at *
      omega
  | case2 tm h =>
    rw [adjustNegative, if_neg h, if_neg h]
    exact ⟨rfl, rfl⟩

/-- Up to a whole second of either sign is left by the loops. -/
theorem adjusted_spec (tm : Timespec) :
    let r := adjustNegative (adjustLarge tm)
    r.ticks = tm.ticks ∧ -nsPerSec ≤ r.nsec ∧ r.nsec ≤ nsPerSec ∧
      (0 < tm.nsec → 0 < r.nsec) ∧ (tm.nsec < 0 → r.nsec < 0) ∧ (tm.nsec = 0 → r.nsec = 0) := by
  have hl := adjustLarge_spec tm
  have hn := adjustNegative_spec (adjustLarge tm)
  have hpos : 0 < nsPerSec := by decide
  refine ⟨hn.1.trans hl.1, ?_⟩
  have hln := hl.2
  have hnn := hn.2
  split at hln
  · rw [if_neg (by omega)] at hnn
    rw [hnn]
    omega
  · rw [hln] at hnn ⊢
    split at hnn
    · omega
    · rw [hnn]
      omega

/-- The loops neither make a whole number of seconds nor change its sign. -/
theorem whole_adjusted (tm : Timespec) :
    (adjustNegative (adjustLarge tm)).Whole ↔ tm.Whole := by
  rcases adjusted_spec tm with ⟨ht, -, -, hp, hn, hz⟩
  simp only [Timespec.Whole, Timespec.ticks, nsPerSec] at *
  omega

theorem ticks_adjustSign (tm : Timespec) : (adjustSign tm).ticks = tm.ticks := by
  unfold adjustSign
  split
  · simp only [Timespec.ticks]
    ring
  · split
    · simp only [Timespec.ticks]
      ring
    · rfl

/-- The signs are adjusted by one second, and no second is left but a whole one. -/
theorem canonical_adjustSign {tm : Timespec} (hlo : -nsPerSec ≤ tm.nsec)
    (hhi : tm.nsec ≤ nsPerSec) (h : ¬tm.Whole) : (adjustSign tm).Canonical := by
  unfold adjustSign
  split
  · constructor <;> simp only [Timespec.Whole, Timespec.ticks, nsPerSec] at * <;> omega
  · split
    · constructor <;> simp only [Timespec.Whole, Timespec.ticks, nsPerSec] at * <;> omega
    · constructor <;> simp only [Timespec.Whole, Timespec.ticks, nsPerSec] at * <;> omega

theorem nsec_adjustSign {tm : Timespec} (hlo : -nsPerSec ≤ tm.nsec)
    (hhi : tm.nsec ≤ nsPerSec) (h : tm.Whole) :
    (adjustSign tm).nsec = if 0 < tm.ticks then nsPerSec else -nsPerSec := by
  have hs : adjustSign tm = tm := by
    simp only [Timespec.Whole, Timespec.ticks, nsPerSec] at *
    rw [adjustSign, if_neg (by omega), if_neg (by omega)]
  rw [hs]
  rcases h with ⟨hm, ⟨hn, ht⟩ | ⟨hn, ht⟩⟩
  · rw [if_pos ht]
    simp only [nsPerSec] at *
    omega
  · rw [if_neg (by omega)]
    simp only [nsPerSec] at *
    omega

theorem ticks_normalizeTimespec (tm : Timespec) : (normalizeTimespec tm).ticks = tm.ticks :=
  (ticks_adjustSign _).trans (adjusted_spec tm).1

/-- A whole number of seconds in the nanoseconds leaves one of them there, if the sign is right. -/
theorem nsec_of_whole {tm : Timespec} (h : tm.Whole) :
    (normalizeTimespec tm).nsec = if 0 < tm.ticks then nsPerSec else -nsPerSec := by
  rcases adjusted_spec tm with ⟨ht, hlo, hhi, -⟩
  rw [← ht]
  exact nsec_adjustSign hlo hhi ((whole_adjusted tm).mpr h)

theorem canonical_normalizeTimespec (tm : Timespec) :
    (normalizeTimespec tm).Canonical ↔ ¬tm.Whole := by
  rcases adjusted_spec tm with ⟨-, hlo, hhi, -⟩
  constructor
  · intro hc h
    have hn := nsec_of_whole h
    have hl := hc.nsec_lt
    have hu := hc.neg_lt_nsec
    split at hn <;> omega
  · intro h
    exact canonical_adjustSign hlo hhi (mt (whole_adjusted tm).mp h)

/-- Normalised times with the same ticks are the same exactly if a second was left in both or in
neither. -/
theorem normalizeTimespec_eq_iff {x y : Timespec} (ht : x.ticks = y.ticks) :
    normalizeTimespec x = normalizeTimespec y ↔ (x.Whole ↔ y.Whole) := by
  have hticks : (normalizeTimespec x).ticks = (normalizeTimespec y).ticks := by
    rw [ticks_normalizeTimespec, ticks_normalizeTimespec, ht]
  constructor
  · intro he
    have hc := canonical_normalizeTimespec y
    rw [← he, canonical_normalizeTimespec x] at hc
    exact not_iff_not.mp hc
  · intro hw
    by_cases hx : x.Whole
    · apply Timespec.eq_of_nsec hticks
      rw [nsec_of_whole hx, nsec_of_whole (hw.mp hx), ht]
    · exact ((canonical_normalizeTimespec x).mpr hx).eq_of_ticks
        ((canonical_normalizeTimespec y).mpr (mt hw.mpr hx)) hticks

/-! ### Sums and differences -/

/-- Two times added by their members. -/
def rawAdd (t d : Timespec) : Timespec := ⟨t.sec + d.sec, t.nsec + d.nsec⟩

def rawSub (t d : Timespec) : Timespec := ⟨t.sec - d.sec, t.nsec - d.nsec⟩

namespace Duration

/-- `CtrlrFx/os/posix/CtrlrFx/Time.h:323–327`. -/
def addAssign (d d' : Timespec) : Timespec := normalizeTimespec (rawAdd d d')

/-- `CtrlrFx/os/posix/CtrlrFx/Time.h:330–334`. -/
def subAssign (d d' : Timespec) : Timespec := normalizeTimespec (rawSub d d')

/-- `CtrlrFx/os/posix/CtrlrFx/Time.h:369–373`. -/
def add (d1 d2 : Timespec) : Timespec := normalizeTimespec (rawAdd d1 d2)

/-- `CtrlrFx/os/posix/CtrlrFx/Time.h:376–380`. -/
def sub (d1 d2 : Timespec) : Timespec := normalizeTimespec (rawSub d1 d2)

end Duration

namespace Time

/-- From what the clock gives; `CtrlrFx/os/posix/CtrlrFx/Time.h:464–473`. -/
def fromNow (now d : Timespec) : Timespec := normalizeTimespec (rawAdd now d)

/-- `CtrlrFx/os/posix/CtrlrFx/Time.h:475–481`. -/
def addAssign (t d : Timespec) : Timespec := normalizeTimespec (rawAdd t d)

/-- `CtrlrFx/os/posix/CtrlrFx/Time.h:483–489`. -/
def subAssign (t d : Timespec) : Timespec := normalizeTimespec (rawSub t d)

/-- `CtrlrFx/os/posix/CtrlrFx/Time.h:493–498`, and in the other order at 500–504. -/
def add (t d : Timespec) : Timespec := normalizeTimespec (rawAdd t d)

/-- `CtrlrFx/os/posix/CtrlrFx/Time.h:506–511`. -/
def sub (t d : Timespec) : Timespec := normalizeTimespec (rawSub t d)

/-- The duration between two times; `CtrlrFx/os/posix/CtrlrFx/Time.h:513–518`. -/
def diff (t1 t2 : Timespec) : Timespec := normalizeTimespec (rawSub t1 t2)

end Time

/-- The operators that give a duration or a time, and `from_now`. -/
inductive Op where
  | durationAddAssign
  | durationSubAssign
  | durationAdd
  | durationSub
  | timeAddAssign
  | timeSubAssign
  | timeAdd
  | timeSub
  | timeDiff
  | fromNow
  deriving DecidableEq, Repr

def Op.apply : Op → Timespec → Timespec → Timespec
  | durationAddAssign => Duration.addAssign
  | durationSubAssign => Duration.subAssign
  | durationAdd => Duration.add
  | durationSub => Duration.sub
  | timeAddAssign => Time.addAssign
  | timeSubAssign => Time.subAssign
  | timeAdd => Time.add
  | timeSub => Time.sub
  | timeDiff => Time.diff
  | fromNow => Time.fromNow

/-- What an operator normalises. -/
def Op.raw : Op → Timespec → Timespec → Timespec
  | durationAddAssign | durationAdd | timeAddAssign | timeAdd | fromNow => rawAdd
  | durationSubAssign | durationSub | timeSubAssign | timeSub | timeDiff => rawSub

theorem Op.apply_eq (op : Op) (t d : Timespec) : op.apply t d = normalizeTimespec (op.raw t d) := by
  cases op <;> rfl

/-- Of two results `==` holds exactly when their ticks are equal, unless these are equal and a
second was left in one of them alone. -/
theorem Op.eq_iff_ticks (op op' : Op) (a b a' b' : Timespec) :
    ((op.apply a b).eq (op'.apply a' b') = true ↔
        (op.apply a b).ticks = (op'.apply a' b').ticks) ↔
      ((op.raw a b).ticks = (op'.raw a' b').ticks →
        ((op.raw a b).Whole ↔ (op'.raw a' b').Whole)) := by
  rw [Op.apply_eq, Op.apply_eq, Timespec.eq_iff, ticks_normalizeTimespec, ticks_normalizeTimespec]
  constructor
  · intro h ht
    exact (normalizeTimespec_eq_iff ht).mp (h.mpr ht)
  · intro h
    constructor
    · intro he
      have hticks := congrArg Timespec.ticks he
      rwa [ticks_normalizeTimespec, ticks_normalizeTimespec] at hticks
    · intro ht
      exact (normalizeTimespec_eq_iff ht).mpr (h ht)

/-- A whole number of seconds from which a duration with nanoseconds is taken, that has its sign
and is smaller. -/
def Missed (t d : Timespec) : Prop :=
  t.nsec = 0 ∧ (0 < d.nsec ∧ d.lt t = true ∨ d.nsec < 0 ∧ t.lt d = true)

instance (t d : Timespec) : Decidable (Missed t d) :=
  inferInstanceAs (Decidable (_ ∧ (_ ∨ _)))

/-- Adding back leaves a second in the nanoseconds of a whole time. -/
theorem whole_add_sub {t d : Timespec} (ht : t.Canonical) (hd : d.Canonical) :
    (rawAdd (Time.sub t d) d).Whole ↔ Missed t d := by
  have hr : (Time.sub t d).ticks = (rawSub t d).ticks := ticks_normalizeTimespec _
  rcases ht with ⟨htl, htu, htp, htn⟩
  rcases hd with ⟨hdl, hdu, hdp, hdn⟩
  rw [Missed, Timespec.lt_iff, Timespec.lt_iff]
  by_cases hw : (rawSub t d).Whole
  · -- both would have to be whole, and then nothing is left of their difference
    have hn : (Time.sub t d).nsec = nsPerSec ∨ (Time.sub t d).nsec = -nsPerSec := by
      have hi : (Time.sub t d).nsec = _ := nsec_of_whole hw
      rw [hi]
      split
      · exact .inl rfl
      · exact .inr rfl
    generalize Time.sub t d = r at *
    simp only [Timespec.Whole, Timespec.ticks, rawAdd, rawSub, nsPerSec] at *
    constructor
    · rintro ⟨hm, -⟩
      omega
    · rintro ⟨hm, -⟩
      omega
  · have hc : (Time.sub t d).Canonical := (canonical_normalizeTimespec _).mpr hw
    generalize Time.sub t d = r at *
    rcases hc with ⟨hcl, hcu, hcp, hcn⟩
    simp only [Timespec.Whole, Timespec.ticks, rawAdd, rawSub, nsPerSec] at *
    constructor
    · rintro ⟨hm, hs⟩
      omega
    · rintro ⟨hm, hs⟩
      omega

theorem add_sub_eq_iff {t d : Timespec} (ht : t.Canonical) (hd : d.Canonical) :
    (Time.add (Time.sub t d) d).eq t = true ↔ ¬Missed t d := by
  have hticks : (Time.add (Time.sub t d) d).ticks = t.ticks := by
    have hr : (Time.sub t d).ticks = (rawSub t d).ticks := ticks_normalizeTimespec _
    rw [Time.add, ticks_normalizeTimespec]
    simp only [Timespec.ticks, rawAdd, rawSub, nsPerSec] at *
    omega
  rw [Timespec.eq_iff, ← whole_add_sub ht hd, ← canonical_normalizeTimespec]
  constructor
  · intro he
    change (Time.add (Time.sub t d) d).Canonical
    rwa [he]
  · intro hc
    exact hc.eq_of_ticks ht hticks

/-- A sum of times that are not negative is a valid time, unless the nanoseconds make a second. -/
theorem valid_rawAdd_iff {t d : Timespec} (ht : t.Valid) (hd : d.Valid) (hts : 0 ≤ t.sec)
    (hds : 0 ≤ d.sec) :
    (normalizeTimespec (rawAdd t d)).Valid ↔ t.nsec + d.nsec ≠ nsPerSec := by
  have hw : (rawAdd t d).Whole ↔ t.nsec + d.nsec = nsPerSec := by
    simp only [Timespec.Valid, Timespec.Whole, Timespec.ticks, rawAdd, nsPerSec] at *
    omega
  have hticks := ticks_normalizeTimespec (rawAdd t d)
  rw [ne_eq, ← hw, ← canonical_normalizeTimespec]
  constructor
  · rintro ⟨hl, hu⟩
    generalize normalizeTimespec (rawAdd t d) = r at *
    constructor <;> simp only [Timespec.Valid, Timespec.ticks, rawAdd, nsPerSec] at * <;> omega
  · rintro ⟨hl, hu, hp, hn⟩
    generalize normalizeTimespec (rawAdd t d) = r at *
    simp only [Timespec.Valid, Timespec.ticks, rawAdd, nsPerSec] at *
    omega

/-- What normalised times are to promise, with the inputs that they promise it for: the loops leave
a whole second in the nanoseconds. -/
theorem canonical_iff (tm : Timespec) (op op' : Op) (a b a' b' : Timespec) {t d : Timespec}
    (ht : t.Canonical) (hd : d.Canonical) :
    ((normalizeTimespec tm).ticks = tm.ticks ∧ ((normalizeTimespec tm).Canonical ↔ ¬tm.Whole)) ∧
    (((op.apply a b).eq (op'.apply a' b') = true ↔
          (op.apply a b).ticks = (op'.apply a' b').ticks) ↔
        ((op.raw a b).ticks = (op'.raw a' b').ticks →
          ((op.raw a b).Whole ↔ (op'.raw a' b').Whole))) ∧
    ((Time.add (Time.sub t d) d).eq t = true ↔ ¬Missed t d) ∧
    (t.NonNeg → d.NonNeg →
      ((Time.fromNow t d).Valid ↔ t.nsec + d.nsec ≠ nsPerSec) ∧
        ((Time.addAssign t d).Valid ↔ t.nsec + d.nsec ≠ nsPerSec)) := by
  refine ⟨?_, Op.eq_iff_ticks op op' a b a' b', add_sub_eq_iff ht hd, ?_⟩
  · exact ⟨ticks_normalizeTimespec tm, canonical_normalizeTimespec tm⟩
  · intro htn hdn
    have hv := valid_rawAdd_iff (ht.valid htn) (hd.valid hdn) htn.1 hdn.1
    exact ⟨hv, hv⟩

/-- Sums and differences with fractions of a second. -/
theorem canonical_iff_fractions :
    let t : Timespec := ⟨5, 250000000⟩
    let d : Timespec := ⟨2, 500000000⟩
    let e : Timespec := ⟨2, 150000000⟩
    let f : Timespec := ⟨0, 600000000⟩
    (normalizeTimespec ⟨1, 1500000000⟩).Canonical ∧
      ((Duration.add d f).eq (Time.diff t e) = true ↔
        (Duration.add d f).ticks = (Time.diff t e).ticks) ∧
      (Time.add (Time.sub t d) d).eq t = true ∧ (Time.fromNow t d).Valid := by
  intro t d e f
  have ht : t.Canonical := ⟨by decide, by decide, by decide, by decide⟩
  have hd : d.Canonical := ⟨by decide, by decide, by decide, by decide⟩
  rcases canonical_iff ⟨1, 1500000000⟩ .durationAdd .timeDiff d f t e ht hd with
    ⟨⟨-, hc⟩, he, hs, hv⟩
  refine ⟨hc.mpr (by decide), he.mpr (by decide), hs.mpr (by decide), ?_⟩
  exact (hv ⟨by decide, by decide⟩ ⟨by decide, by decide⟩).1.mpr (by decide)

/-- One second given in nanoseconds is left as it is. -/
theorem not_canonical : ¬∀ tm : Timespec, (normalizeTimespec tm).Canonical := by
  intro h
  exact (canonical_normalizeTimespec ⟨0, 1000000000⟩).mp (h _) (by decide)

end CtrlrFx.Os.Posix
