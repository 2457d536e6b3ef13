import CtrlrFx.Base.Words
import Mathlib.Data.UInt

/-!
# Milliseconds and clock ticks

`CtrlrFx/os/vdk/CtrlrFx/Time.h` counts ticks of 100 µs in 32 bits, and `CtrlrFx/ClockTime.h` the
ticks of the C library, a million a second, in a 64-bit `long`. Both form a product in 32 bits
before they divide, where a signed one wraps as an unsigned one does.
-/

namespace CtrlrFx.Os

namespace Vdk

/-- `USEC_PER_TICK`; `CtrlrFx/os/vdk/CtrlrFx/Time.h:15`. -/
def usecPerTick : UInt32 := 100

/-- `CtrlrFx/os/vdk/CtrlrFx/Time.h:30–33, 86`. -/
structure Duration where
  ticks : UInt32
  deriving DecidableEq, Repr

namespace Duration

/-- The product of two `int`, which becomes unsigned for the division;
`CtrlrFx/os/vdk/CtrlrFx/Time.h:92`. The one from the bare number, at line 93, is the same. -/
def ofMsec (ms : Int32) : Duration := ⟨(1000 * ms).toUInt32 / usecPerTick⟩

/-- `CtrlrFx/os/vdk/CtrlrFx/Time.h:111–113`. -/
def toMsec (d : Duration) : Int32 := (d.ticks.toInt32.toUInt32 * usecPerTick / 1000).toInt32

theorem toNat_ticks_ofMsec {ms : Int32} {n : Nat} (h : ms.toUInt32.toNat = n) :
    (ofMsec ms).ticks.toNat = 1000 * n % 2 ^ 32 / 100 := by
  rw [ofMsec, UInt32.toNat_div, Int32.toUInt32_mul, UInt32.toNat_mul, h]
  rfl

/-- What is given back is the number of milliseconds in the ticks, where these are not too many
microseconds. -/
theorem toMsec_eq_iff {d : Duration} {ms : Int32} {n : Nat} (h : ms.toUInt32.toNat = n) :
    d.toMsec = ms ↔ d.ticks.toNat * 100 % 2 ^ 32 / 1000 = n := by
  have hinj : d.toMsec = ms ↔ d.toMsec.toUInt32 = ms.toUInt32 :=
    ⟨congrArg _, fun he ↦ by simpa using congrArg UInt32.toInt32 he⟩
  rw [hinj, toMsec, UInt32.toUInt32_toInt32, UInt32.toUInt32_toInt32, ← UInt32.toNat_inj, h,
    UInt32.toNat_div, UInt32.toNat_mul]
  rfl

/-- The ticks are those of that many milliseconds, and these are given back. -/
structure Exact (ms : Int32) : Prop where
  ticks_eq : ((ofMsec ms).ticks.toNat : Int) = ms.toInt * 1000 / 100
  back : (ofMsec ms).toMsec = ms

/-- A count is converted exactly if its microseconds fit the word that its ticks fit. -/
theorem exact_iff {ms : Int32} (h : 0 ≤ ms) : Exact ms ↔ 1000 * ms.toInt < 2 ^ 32 := by
  obtain ⟨n, hn⟩ : ∃ n, ms.toUInt32.toNat = n := ⟨_, rfl⟩
  have hi : ms.toInt = n := by
    rw [← hn, Int32.toNat_toUInt32_of_le h]
    exact (Int.toNat_of_nonneg (Int32.le_iff_toInt_le.mp h)).symm
  have ht := toNat_ticks_ofMsec hn
  rw [hi]
  constructor
  · rintro ⟨hticks, -⟩
    rw [ht, hi] at hticks
    omega
  · intro hlt
    have hm : 1000 * n % 2 ^ 32 = 1000 * n := Nat.mod_eq_of_lt (by omega)
    rw [hm] at ht
    refine ⟨?_, (toMsec_eq_iff hn).mpr ?_⟩
    · rw [ht, hi]
      omega
    · rw [ht]
      omega

end Duration
end Vdk

/-- `CtrlrFx/ClockTime.h:15–24`. -/
structure ClockDuration where
  ticks : Int64
  deriving DecidableEq, Repr

namespace ClockDuration

/-- `CLOCKS_PER_SEC` as a `uint32`; `CtrlrFx/ClockTime.h:26`. -/
def ticksPerSec : UInt32 := 1000000

/-- An unsigned number as a `long`. -/
def long (x : UInt32) : Int64 := Int64.ofInt x.toNat

/-- `CtrlrFx/ClockTime.h:46–49`. -/
def fromMs (ms : UInt32) : ClockDuration := ⟨long (ms * ticksPerSec / 1000)⟩

/-- `CtrlrFx/ClockTime.h:33`. -/
def ms (d : ClockDuration) : Int64 := 1000 * d.ticks / long ticksPerSec

theorem toInt_long (x : UInt32) : (long x).toInt = x.toNat := by
  have hx := x.toNat_lt
  exact Int64.toInt_ofInt_of_le (by omega) (by omega)

/-- The ticks of no more than a word are converted to milliseconds as they should be. -/
theorem toInt_ms (x : UInt32) : (ms ⟨long x⟩).toInt = (x.toNat / 1000 : Nat) := by
  have hx := x.toNat_lt
  have hp : (1000 * long x).toInt = 1000 * x.toNat := by
    have hc : (1000 : Int64).toInt = 1000 := rfl
    rw [Int64.toInt_mul, toInt_long, hc]
    exact Int.bmod_eq_of_le (by omega) (by omega)
  have hq : ((1000 : Int) * x.toNat).tdiv 1000000 = (x.toNat / 1000 : Nat) := by
    rw [Int.tdiv_eq_ediv_of_nonneg (by omega)]
    omega
  rw [ms, Int64.toInt_div, hp, toInt_long]
  change (((1000 : Int) * x.toNat).tdiv 1000000).bmod (2 ^ 64) = _
  rw [hq]
  exact Int.bmod_eq_of_le (by omega) (by omega)

/-- Milliseconds are given back exactly if their product with the ticks of a second fits 32
bits. -/
theorem fromMs_ms_iff (m : UInt32) :
    (fromMs m).ms.toInt = m.toNat ↔ m.toNat * 1000000 < 2 ^ 32 := by
  have hm : (m * ticksPerSec / 1000).toNat = m.toNat * 1000000 % 2 ^ 32 / 1000 := by
    rw [UInt32.toNat_div, UInt32.toNat_mul]
    rfl
  rw [fromMs, toInt_ms, hm]
  omega

end ClockDuration

/-- Of the counts whose ticks can be represented, those up to 4294967 ms are converted exactly on
the one clock, and up to 4294 ms on the other. -/
theorem milliseconds_exact_iff {ms : Int32} (h : 0 ≤ ms) (_ : ms.toInt * 1000 / 100 < 2 ^ 32)
    (m : UInt32) :
    (Vdk.Duration.Exact ms ↔ 1000 * ms.toInt < 2 ^ 32) ∧
      ((ClockDuration.fromMs m).ms.toInt = m.toNat ↔ m.toNat * 1000000 < 2 ^ 32) := by
  constructor
  · exact Vdk.Duration.exact_iff h
  · exact ClockDuration.fromMs_ms_iff m

/-- The last counts that are converted exactly. -/
theorem milliseconds_exact_last :
    Vdk.Duration.Exact 4294967 ∧ (ClockDuration.fromMs 4294).ms.toInt = 4294 := by
  have h := @milliseconds_exact_iff 4294967 (by decide) (by decide) 4294
  exact ⟨h.1.mpr (by decide), h.2.mpr (by decide)⟩

/-- Five seconds come back as 705 ms. -/
theorem not_milliseconds_exact : ¬((∀ ms : Int32, 0 ≤ ms → ms.toInt * 1000 / 100 < 2 ^ 32 →
    Vdk.Duration.Exact ms) ∧
    ∀ m : UInt32, (ClockDuration.fromMs m).ms.toInt = m.toNat) := by
  rintro ⟨-, h⟩
  exact absurd (h 5000) (by decide)

end CtrlrFx.Os
