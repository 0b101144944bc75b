import Modellbahn.Basic
import Mathlib.Order.Monotone.Basic
import Mathlib.Tactic.Linarith
import Mathlib.Tactic.Ring

/-!
# The SysTick timer and its readings

The model of `SysTickTimer::initialize` in `systick_timer.hpp`, of the search of `prescaler.hpp`
that it uses, and of the conversion at the end of `milli_clock::now` and `micro_clock::now`.

The timer counts down from `LOAD` to zero and is reloaded, at the frequency `SystemClock::Frequency`
or at an eighth of it. At every reload a quarter of a second is added to the time in milliseconds
and to that in microseconds; the counts since then are converted by a multiplication with the ticks
per `2 ^ 32` counts. The two clocks differ in their ticks per second only.

The quotients that `from_linear` computes as floating point numbers are exact for the desired
frequency of 4 Hz, and are compared as integers.

## Main definitions

* `Modellbahn.fromLinear`: the search for a prescaler.
* `Modellbahn.ChronoClock`: the two clocks.
* `Modellbahn.reload`, `Modellbahn.ticksPerNcycles`: what `initialize` sets.
* `Modellbahn.nowTicks`, `Modellbahn.ticks`: the conversion, and the reading after a number of
  counts.

## Main results

* `Modellbahn.fromLinear_four`: the prescaler for 4 Hz.
* `Modellbahn.nowTicks_eq_ticks`: the conversion gives the reading.
* `Modellbahn.monotone_ticks`, `Modellbahn.ticks_mul_le`, `Modellbahn.lt_ticks_mul`: the readings
  and the time passed.
-/

namespace Modellbahn

/-! ### The search for a prescaler -/

/-- The integers of `GenericPrescaler::Result` that depend on the search. -/
structure PrescalerResult where
  index : ℕ
  prescaler : ℕ
  frequency : ℕ
  deriving DecidableEq, Repr

/-- The constructor of `GenericPrescaler::Result`. -/
def prescalerResult (input index prescaler : ℕ) : PrescalerResult where
  index := index
  prescaler := prescaler
  frequency := input / prescaler

/-- `GenericPrescaler::from_linear`. -/
def fromLinear (input desired first last : ℕ) : PrescalerResult :=
  let prescalerFloor := max (input / desired) first
  let prescalerCeiling := min (input / desired + 1) last
  let baudLower := input / prescalerCeiling
  let baudUpper := input / prescalerFloor
  if 2 * desired ≤ baudUpper + baudLower then
    prescalerResult input (prescalerCeiling - first) prescalerCeiling
  else prescalerResult input (prescalerFloor - first) prescalerFloor

/-- **The prescaler for 4 Hz** is the quotient rounded down, and the frequency is exactly 4 as an
integer, whether or not the prescaler divides the input. -/
theorem fromLinear_four {input last : ℕ} (hinput : 16 ≤ input) (hlast : input / 4 ≤ last) :
    fromLinear input 4 1 last =
      { index := input / 4 - 1, prescaler := input / 4, frequency := 4 } := by
  have hfloor : max (input / 4) 1 = input / 4 := max_eq_left (by omega)
  have hupper : input / (input / 4) = 4 := by
    rw [Nat.div_eq_iff (by omega)]
    omega
  rw [fromLinear, hfloor, hupper]
  -- The ceiling is the quotient itself at the end of the range, and else one more.
  rcases Nat.lt_or_ge (input / 4) last with hlt | hge
  · have hlower : input / (input / 4 + 1) = 3 := by
      rw [Nat.div_eq_iff (by omega)]
      omega
    rw [min_eq_left (Nat.succ_le_of_lt hlt), hlower]
    simp [prescalerResult, hupper]
  · obtain rfl : last = input / 4 := le_antisymm hge hlast
    rw [min_eq_right (Nat.le_succ _), hupper]
    simp [prescalerResult, hupper]

/-! ### What `initialize` sets -/

/-- The two clocks. -/
inductive ChronoClock
  | milli
  | micro
  deriving DecidableEq, Repr

/-- The ticks per second of the clock. -/
def ChronoClock.perSecond : ChronoClock → ℕ
  | .milli => 1000
  | .micro => 1000000

/-- `systick_step`. -/
def systickStep : ℕ := 250

/-- What the handler of the timer adds to the time: `systick_step`, or `systick_step * 1'000ul`. -/
def ChronoClock.step : ChronoClock → BitVec 32
  | .milli => BitVec.ofNat 32 systickStep
  | .micro => BitVec.ofNat 32 (systickStep * 1000)

/-- The number by which the frequency of the core is divided for the timer: 1 with the processor
clock, and 8 without. -/
def divider (frequency : ℕ) : ℕ := if frequency < 8000000 then 1 else 8

/-- The argument of `enable`: `result.index`. -/
def reload (frequency : ℕ) : BitVec 32 :=
  BitVec.ofNat 32 (fromLinear (frequency / divider frequency) 4 1 (2 ^ 24 - 1)).index

/-- `ms_per_Ncycles` and `us_per_Ncycles`, which are computed with 64 bits and have 32. -/
def ticksPerNcycles (c : ChronoClock) (frequency : ℕ) : BitVec 32 :=
  BitVec.ofNat 32 (2 ^ 32 * (divider frequency * c.perSecond) / frequency)

/-- The end of `now`: from the registers `LOAD` and `VAL` and the time at the last reload. -/
def nowTicks (load val time perNcycles : BitVec 32) : BitVec 32 :=
  time + (((load - val).setWidth 64 * perNcycles.setWidth 64) >>> 32).setWidth 32

/-- The number of counts from a reload to the next one. -/
def period (frequency : ℕ) : ℕ := (reload frequency).toNat + 1

/-- The reading of the clock `counts` counts after the first reload, without a wrap around. -/
def ticks (c : ChronoClock) (frequency counts : ℕ) : ℕ :=
  c.step.toNat * (counts / period frequency) +
    counts % period frequency * (ticksPerNcycles c frequency).toNat / 2 ^ 32

/-- **The conversion** gives the reading modulo `2 ^ 32`. -/
theorem nowTicks_eq_ticks (c : ChronoClock) (frequency counts : ℕ) {val : BitVec 32}
    (hval : val.toNat = (reload frequency).toNat - counts % period frequency) :
    nowTicks (reload frequency) val (BitVec.ofNat 32 (c.step.toNat * (counts / period frequency)))
      (ticksPerNcycles c frequency) = BitVec.ofNat 32 (ticks c frequency counts) := by
  have hmod : counts % period frequency < period frequency := Nat.mod_lt _ (Nat.succ_pos _)
  have hload : (reload frequency).toNat < 2 ^ 32 := (reload frequency).isLt
  have hdiff : (reload frequency - val).toNat = counts % period frequency := by
    rw [BitVec.toNat_sub_of_le, hval]
    · rw [period] at hmod ⊢
      omega
    · rw [BitVec.le_def]
      omega
  have hper : (ticksPerNcycles c frequency).toNat < 2 ^ 32 := (ticksPerNcycles c frequency).isLt
  have hproduct : counts % period frequency * (ticksPerNcycles c frequency).toNat < 2 ^ 64 := by
    have hcounts : counts % period frequency < 2 ^ 32 := hdiff ▸ (reload frequency - val).isLt
    calc counts % period frequency * (ticksPerNcycles c frequency).toNat
        ≤ (2 ^ 32 - 1) * (2 ^ 32 - 1) := Nat.mul_le_mul (by omega) (by omega)
      _ < 2 ^ 64 := by decide
  apply BitVec.eq_of_toNat_eq
  rw [nowTicks, BitVec.toNat_add, BitVec.toNat_setWidth, BitVec.toNat_ushiftRight, BitVec.toNat_mul,
    BitVec.toNat_setWidth, BitVec.toNat_setWidth, hdiff, BitVec.toNat_ofNat, BitVec.toNat_ofNat,
    ticks, Nat.shiftRight_eq_div_pow]
  have hcounts : counts % period frequency < 2 ^ 64 := by
    rw [period] at hmod ⊢
    omega
  rw [Nat.mod_eq_of_lt hcounts, Nat.mod_eq_of_lt (hper.trans (by decide)),
    Nat.mod_eq_of_lt hproduct, ← Nat.add_mod]

/-! ### The readings and the time -/

section

variable {c : ChronoClock} {frequency : ℕ}

theorem step_mul_four (c : ChronoClock) : 4 * c.step.toNat = c.perSecond := by
  cases c <;> rfl

theorem divider_pos (frequency : ℕ) : 0 < divider frequency := by
  rw [divider]
  split_ifs <;> decide

/-- A quarter of a second has this many counts, rounded down. -/
theorem period_eq (hmin : 16 ≤ frequency) (hmax : frequency < 2 ^ 29) :
    period frequency = frequency / (4 * divider frequency) := by
  have hinput : 16 ≤ frequency / divider frequency ∧
      frequency / divider frequency / 4 ≤ 2 ^ 24 - 1 := by
    rw [divider]
    split_ifs <;> omega
  have hlt : frequency / divider frequency / 4 - 1 < 2 ^ 32 := by omega
  rw [period, reload, fromLinear_four hinput.1 hinput.2, BitVec.toNat_ofNat, Nat.mod_eq_of_lt hlt,
    Nat.sub_add_cancel (by omega), Nat.div_div_eq_div_mul, Nat.mul_comm]

theorem ticksPerNcycles_mul_le (c : ChronoClock) (frequency : ℕ) :
    (ticksPerNcycles c frequency).toNat * frequency ≤
      2 ^ 32 * (divider frequency * c.perSecond) := by
  rw [ticksPerNcycles, BitVec.toNat_ofNat]
  exact (Nat.mul_le_mul_right _ (Nat.mod_le _ _)).trans (Nat.div_mul_le_self _ _)

/-- They fit if a tick of the clock is longer than a count. -/
theorem lt_ticksPerNcycles_mul (hfit : divider frequency * c.perSecond < frequency) :
    2 ^ 32 * (divider frequency * c.perSecond) <
      ((ticksPerNcycles c frequency).toNat + 1) * frequency := by
  have hpos : 0 < frequency := Nat.zero_lt_of_lt hfit
  have hquotient : 2 ^ 32 * (divider frequency * c.perSecond) / frequency < 2 ^ 32 := by
    rw [Nat.div_lt_iff_lt_mul hpos]
    exact Nat.mul_lt_mul_of_pos_left hfit (by decide)
  rw [ticksPerNcycles, BitVec.toNat_ofNat, Nat.mod_eq_of_lt hquotient]
  rw [Nat.mul_comm (_ + 1)]
  exact Nat.lt_mul_div_succ _ hpos

/-- The counts since a reload are worth less than what the next reload adds. -/
theorem ticks_in_period_lt (hmin : 16 ≤ frequency) (hmax : frequency < 2 ^ 29) {r : ℕ}
    (hr : r < period frequency) :
    r * (ticksPerNcycles c frequency).toNat / 2 ^ 32 < c.step.toNat := by
  have hpos : 0 < frequency := by omega
  have hperiod : r * (4 * divider frequency) < frequency := by
    rw [period_eq hmin hmax] at hr
    calc r * (4 * divider frequency)
        < frequency / (4 * divider frequency) * (4 * divider frequency) :=
          Nat.mul_lt_mul_of_pos_right hr (Nat.mul_pos (by decide) (divider_pos frequency))
      _ ≤ frequency := Nat.div_mul_le_self _ _
  have hstep : 0 < c.step.toNat := by cases c <;> decide
  rw [Nat.div_lt_iff_lt_mul (by decide)]
  refine Nat.lt_of_mul_lt_mul_right (a := frequency) ?_
  calc r * (ticksPerNcycles c frequency).toNat * frequency
      = r * ((ticksPerNcycles c frequency).toNat * frequency) := Nat.mul_assoc _ _ _
    _ ≤ r * (2 ^ 32 * (divider frequency * c.perSecond)) :=
        Nat.mul_le_mul_left _ (ticksPerNcycles_mul_le c frequency)
    _ = r * (4 * divider frequency) * (c.step.toNat * 2 ^ 32) := by
        rw [← step_mul_four]
        ring
    _ < frequency * (c.step.toNat * 2 ^ 32) :=
        Nat.mul_lt_mul_of_pos_right hperiod (Nat.mul_pos hstep (by decide))
    _ = c.step.toNat * 2 ^ 32 * frequency := Nat.mul_comm _ _

theorem period_le (hmin : 16 ≤ frequency) (hmax : frequency < 2 ^ 29) :
    period frequency ≤ 2 ^ 24 := by
  rw [period_eq hmin hmax, divider]
  split_ifs <;> omega

theorem converted_le {m perCount : ℕ} (r : ℕ) (hm : m * frequency ≤ 2 ^ 32 * perCount) :
    r * m / 2 ^ 32 * frequency ≤ r * perCount := by
  refine Nat.le_of_mul_le_mul_left ?_ (Nat.two_pow_pos 32)
  calc 2 ^ 32 * (r * m / 2 ^ 32 * frequency)
      = 2 ^ 32 * (r * m / 2 ^ 32) * frequency := (Nat.mul_assoc _ _ _).symm
    _ ≤ r * m * frequency := Nat.mul_le_mul_right _ (Nat.mul_div_le _ _)
    _ = r * (m * frequency) := Nat.mul_assoc _ _ _
    _ ≤ r * (2 ^ 32 * perCount) := Nat.mul_le_mul_left _ hm
    _ = 2 ^ 32 * (r * perCount) := by ring

/-- Rounding twice, they lose less than `1 + 1 / 256` ticks. -/
theorem lt_converted {m perCount r : ℕ} (hr : r < 2 ^ 24)
    (hm : 2 ^ 32 * perCount < (m + 1) * frequency) :
    256 * (r * perCount) < (256 * (r * m / 2 ^ 32 + 1) + 1) * frequency := by
  have hpos : 0 < frequency := Nat.pos_of_ne_zero fun hzero => by simp [hzero] at hm
  have hround : r * m < 2 ^ 32 * (r * m / 2 ^ 32 + 1) :=
    Nat.lt_mul_div_succ (r * m) (by decide)
  refine Nat.lt_of_mul_lt_mul_left (a := 2 ^ 24) ?_
  calc 2 ^ 24 * (256 * (r * perCount))
      = r * (2 ^ 32 * perCount) := by ring
    _ ≤ r * ((m + 1) * frequency) := Nat.mul_le_mul_left _ hm.le
    _ = (r * m + r) * frequency := by ring
    _ < (2 ^ 32 * (r * m / 2 ^ 32 + 1) + 2 ^ 24) * frequency :=
        Nat.mul_lt_mul_of_pos_right (Nat.add_lt_add hround hr) hpos
    _ = 2 ^ 24 * ((256 * (r * m / 2 ^ 32 + 1) + 1) * frequency) := by ring

theorem succ_div_mod_of_lt {n p : ℕ} (h : n % p + 1 < p) :
    (n + 1) / p = n / p ∧ (n + 1) % p = n % p + 1 := by
  have hn := Nat.mod_add_div n p
  rw [Nat.div_mod_unique (by omega)]
  exact ⟨by omega, h⟩

theorem succ_div_mod_of_eq {n p : ℕ} (h : n % p + 1 = p) :
    (n + 1) / p = n / p + 1 ∧ (n + 1) % p = 0 := by
  have hn := Nat.mod_add_div n p
  rw [Nat.div_mod_unique (by omega), Nat.mul_succ]
  exact ⟨by omega, by omega⟩

theorem ticks_succ_le (hmin : 16 ≤ frequency) (hmax : frequency < 2 ^ 29) (n : ℕ) :
    ticks c frequency n ≤ ticks c frequency (n + 1) := by
  have hr := Nat.mod_lt n (Nat.succ_pos (reload frequency).toNat)
  rcases Nat.lt_or_eq_of_le (Nat.succ_le_of_lt hr) with hlt | heq
  · -- Within a period only the remainder grows.
    obtain ⟨hdiv, hmod⟩ := succ_div_mod_of_lt hlt
    rw [ticks, ticks, period, hdiv, hmod]
    exact Nat.add_le_add_left (Nat.div_le_div_right (Nat.mul_le_mul_right _ (Nat.le_succ _))) _
  · obtain ⟨hdiv, hmod⟩ := succ_div_mod_of_eq heq
    have hlt := ticks_in_period_lt (c := c) hmin hmax hr
    rw [ticks, ticks, period, hdiv, hmod, Nat.mul_succ, Nat.zero_mul, Nat.zero_div, Nat.add_zero]
    exact Nat.add_le_add_left hlt.le _

theorem monotone_ticks (hmin : 16 ≤ frequency) (hmax : frequency < 2 ^ 29) :
    Monotone (ticks c frequency) :=
  monotone_nat_of_le_succ (ticks_succ_le hmin hmax)

/-- The time of `n` counts: what the reloads have added is the time they took. -/
theorem counts_mul (hmin : 16 ≤ frequency) (hmax : frequency < 2 ^ 29)
    (hdvd : 4 * divider frequency ∣ frequency) (n : ℕ) :
    n * (divider frequency * c.perSecond) =
      c.step.toNat * (n / period frequency) * frequency +
        n % period frequency * (divider frequency * c.perSecond) := by
  have hperiod : period frequency * (4 * divider frequency) = frequency := by
    rw [period_eq hmin hmax]
    exact Nat.div_mul_cancel hdvd
  have hreloads : c.step.toNat * (n / period frequency) * frequency =
      period frequency * (n / period frequency) * (divider frequency * c.perSecond) := by
    rw [← step_mul_four]
    nth_rewrite 2 [← hperiod]
    ring
  rw [hreloads, ← Nat.add_mul, Nat.div_add_mod]

/-- The clock does not run ahead. -/
theorem ticks_mul_le (hmin : 16 ≤ frequency) (hmax : frequency < 2 ^ 29)
    (hdvd : 4 * divider frequency ∣ frequency) (n : ℕ) :
    ticks c frequency n * frequency ≤ n * (divider frequency * c.perSecond) := by
  rw [counts_mul hmin hmax hdvd, ticks, Nat.add_mul]
  exact Nat.add_le_add_left (converted_le _ (ticksPerNcycles_mul_le c frequency)) _

theorem lt_ticks_mul (hmin : 16 ≤ frequency) (hmax : frequency < 2 ^ 29)
    (hdvd : 4 * divider frequency ∣ frequency) (hfit : divider frequency * c.perSecond < frequency)
    (n : ℕ) :
    256 * (n * (divider frequency * c.perSecond)) <
      (256 * (ticks c frequency n + 1) + 1) * frequency := by
  have hr : n % period frequency < 2 ^ 24 := by
    have hlt := Nat.mod_lt n (Nat.succ_pos (reload frequency).toNat)
    exact hlt.trans_le (period_le hmin hmax)
  have hlow := lt_converted hr (lt_ticksPerNcycles_mul hfit)
  rw [counts_mul hmin hmax hdvd, ticks]
  linarith only [hlow]

/-- Where a tick is exactly a count, the multiplier wraps around to zero. -/
theorem ticks_of_eq (hmin : 16 ≤ frequency) (heq : divider frequency * c.perSecond = frequency)
    (n : ℕ) : ticks c frequency n = c.step.toNat * (n / period frequency) := by
  rw [ticks, ticksPerNcycles, heq, Nat.mul_div_cancel _ (by omega), BitVec.toNat_ofNat,
    Nat.mod_self, Nat.mul_zero, Nat.zero_div, Nat.add_zero]

end

/-- The frequency of the board. -/
def systemClockFrequency : ℕ := 180000000

end Modellbahn
