import Modellbahn.Firmware.Wire
import Mathlib.Algebra.Order.BigOperators.Group.List
import Mathlib.Data.List.Perm.Subperm
import Mathlib.Data.List.TakeWhile

/-!
# The pace of the firmware

The simulation fiber makes a pass at most every 100 ms, whatever the other fibers do, and also
across the wrap around of the clock: the readings that it compares are those of the clock, modulo
`2 ^ 32`. And it makes one soon after the 100 ms: the scheduler comes round to it after a bounded
number of steps of the other fibers, none of which keeps the processor. Of the other fibers, what
they drive stays as it is while they sleep, and the bridge is never left between two states.

## Main definitions

* `Modellbahn.Firmware.sleeping`, `Modellbahn.Firmware.Keeps`: a fiber in `sleep_for`.
* `Modellbahn.Firmware.Spaced`: the passes since a state, and the readings.
* `Modellbahn.Firmware.cost`: the steps of a fiber up to its next yield.
* `Modellbahn.Firmware.Awaits`: the steps up to a pass that is due.
* `Modellbahn.Firmware.Drives`: what `driver_fiber` keeps.

## Main results

* `Modellbahn.sleep_lasts`: a fiber that sleeps keeps what it drives for the duration.
* `Modellbahn.pass_spacing`: passes are at least 100 ms apart.
* `Modellbahn.due_pass_within`: a pass that is due is made within twelve steps of the fibers.
* `Modellbahn.bridge_inputs`: the inputs of the bridge.
-/

namespace Modellbahn

variable {bs : BoardTable} {n : ℕ}

/-! ### Differences of readings -/

theorem ofNat_sub_ofNat {a b : ℕ} (h : a ≤ b) :
    BitVec.ofNat 32 b - BitVec.ofNat 32 a = BitVec.ofNat 32 (b - a) := by
  obtain ⟨d, rfl⟩ := Nat.exists_eq_add_of_le h
  rw [Nat.add_sub_cancel_left, BitVec.ofNat_add, BitVec.add_comm, BitVec.add_sub_cancel]

/-- A fiber that wakes up has slept for the duration. -/
theorem le_sub_of_not_asleep {a b : ℕ} {duration : BitVec 32} (h : a ≤ b)
    (hsleep : asleep (BitVec.ofNat 32 b) (BitVec.ofNat 32 a) duration = false) :
    a + duration.toNat ≤ b := by
  rw [asleep, ofNat_sub_ofNat h, decide_eq_false_iff_not, BitVec.lt_def, BitVec.toNat_ofNat,
    not_lt] at hsleep
  have hmod := Nat.mod_le (b - a) (2 ^ 32)
  omega

namespace Firmware

variable {cfg : Config} {s₀ : Sim bs n} {s t u : Firmware bs n} {f : FiberId} {input : Bool}
  {turn : Turn} {e : FirmwareEvent}

/-! ### Sleeps -/

/-- Where a fiber is in `sleep_for`: its clock, its variable `start` and the duration. -/
def sleeping (s : Firmware bs n) : FiberId → Option (ChronoClock × BitVec 32 × BitVec 32)
  | .simulation =>
    match s.simulation with
    | .sleep start => some (.milli, start, 100)
    | _ => none
  | .expandControl =>
    match s.control with
    | .sleep start => some (.milli, start, 2)
    | _ => none
  | .measurement =>
    match s.measurement with
    | .sleep start => some (.milli, start, 100)
    | _ => none
  | .driverFiber =>
    match s.driver with
    | .sleep start => some (.micro, start, 500)
    | _ => none

/-- What the fiber drives is as before: the output buffer, CS where it was high, and the bridge. -/
def Keeps (s t : Firmware bs n) : FiberId → Prop
  | .simulation => t.sim = s.sim
  | .expandControl => s.frame = none → t.frame = none
  | .measurement => True
  | .driverFiber => t.bridge = s.bridge

theorem Keeps.of_eq (hsim : t.sim = s.sim) (hframe : s.frame = none → t.frame = none)
    (hbridge : t.bridge = s.bridge) : s.Keeps t f := by
  cases f
  · exact hsim
  · exact hframe
  · trivial
  · exact hbridge

theorem Keeps.refl (s : Firmware bs n) (f : FiberId) : s.Keeps s f := .of_eq rfl id rfl

theorem Keeps.trans {r : Firmware bs n} (h : r.Keeps s f) (h' : s.Keeps t f) : r.Keeps t f := by
  cases f
  · exact Eq.trans h' h
  · exact fun hr => h' (h hr)
  · trivial
  · exact Eq.trans h' h

theorem Resumes.sleeping_of_ne (h : Resumes cfg s f input u turn) {g : FiberId} (hg : g ≠ f) :
    u.sleeping g = s.sleeping g ∧ s.Keeps u g := by
  cases h <;> cases g <;>
    first
      | exact absurd rfl hg
      | exact ⟨rfl, rfl⟩
      | exact ⟨rfl, trivial⟩
      | exact ⟨rfl, id⟩

/-- A step of a fiber that sleeps: it goes on sleeping, or the time is over. -/
theorem Resumes.sleeping_self (h : Resumes cfg s f input u turn) {c : ChronoClock}
    {start duration : BitVec 32} (hsleep : s.sleeping f = some (c, start, duration)) :
    u = s ∨ Modellbahn.asleep (s.now cfg c) start duration = false := by
  cases h with
  | asleep => exact Or.inl rfl
  | controlAsleep => exact Or.inl rfl
  | wake hpc hdue =>
    simp only [sleeping, hpc, Option.some.injEq, Prod.mk.injEq] at hsleep
    obtain ⟨rfl, rfl, rfl⟩ := hsleep
    exact Or.inr hdue
  | controlWake hpc hdue =>
    simp only [sleeping, hpc, Option.some.injEq, Prod.mk.injEq] at hsleep
    obtain ⟨rfl, rfl, rfl⟩ := hsleep
    exact Or.inr hdue
  | measurement hturn hresume =>
    cases hpc : s.measurement with
    | start => simp [sleeping, hpc] at hsleep
    | poll => simp [sleeping, hpc] at hsleep
    | sleep start' =>
      simp only [sleeping, hpc, Option.some.injEq, Prod.mk.injEq] at hsleep
      obtain ⟨rfl, rfl, rfl⟩ := hsleep
      simp only [resumeMeasurement, hpc] at hresume
      split_ifs at hresume with hasleep
      · exact Or.inl (congrArg Prod.fst hresume).symm
      · exact Or.inr (by simpa using hasleep)
  | driver hturn hresume =>
    cases hpc : s.driver with
    | init => simp [sleeping, hpc] at hsleep
    | first => simp [sleeping, hpc] at hsleep
    | second => simp [sleeping, hpc] at hsleep
    | sleep start' =>
      simp only [sleeping, hpc, Option.some.injEq, Prod.mk.injEq] at hsleep
      obtain ⟨rfl, rfl, rfl⟩ := hsleep
      simp only [resumeDriver, hpc] at hresume
      split_ifs at hresume with hasleep
      · exact Or.inl (congrArg Prod.fst hresume).symm
      · exact Or.inr (by simpa using hasleep)
  | _ hpc => simp [sleeping, hpc] at hsleep

theorem schedule_eq {op : SchedulerOp FiberId} (h : u.schedule op = .ok t) :
    ∃ scheduler, t = { u with scheduler := scheduler } := by
  rw [schedule] at h
  split at h
  · cases h
    exact ⟨_, rfl⟩
  · cases h

/-! ### Passes are 100 ms apart -/

/-- An event lets time pass, or the simulation fiber makes a step, or neither. -/
theorem step_simulation_cases (h : s.step cfg e = .ok t) :
    t.simulation = s.simulation ∧ t.readings = s.readings ∧ s.time ≤ t.time ∨
      t.time = s.time ∧ ∃ button u turn, Resumes cfg s .simulation button u turn ∧
        t.simulation = u.simulation ∧ t.readings = u.readings := by
  cases e with
  | count =>
    cases h
    exact Or.inl ⟨rfl, rfl, Nat.le_succ _⟩
  | cpu input =>
    obtain ⟨f, u, turn, -, hresume, ht⟩ := cpu_cases h
    obtain ⟨scheduler, rfl⟩ : ∃ scheduler, t = { u with scheduler := scheduler } := by
      rcases ht with ⟨-, rfl⟩ | ⟨-, ht⟩ | ⟨-, ht⟩
      · exact ⟨t.scheduler, rfl⟩
      · exact schedule_eq ht
      · exact schedule_eq ht
    cases hresume with
    | pass hpc hadvance => exact Or.inr ⟨rfl, _, _, _, .pass hpc hadvance, rfl, rfl⟩
    | notFound hpc hadvance => exact Or.inr ⟨rfl, input, _, _, .notFound hpc hadvance, rfl, rfl⟩
    | write hpc hset => exact Or.inr ⟨rfl, input, _, _, .write hpc hset, rfl, rfl⟩
    | fallAsleep hpc => exact Or.inr ⟨rfl, input, _, _, .fallAsleep hpc, rfl, rfl⟩
    | asleep hpc hsleep => exact Or.inr ⟨rfl, input, _, _, .asleep hpc hsleep, rfl, rfl⟩
    | wake hpc hsleep => exact Or.inr ⟨rfl, input, _, _, .wake hpc hsleep, rfl, rfl⟩
    | _ => exact Or.inl ⟨rfl, rfl, le_rfl⟩
  | read =>
    rw [Firmware.step, Firmware.readByte] at h
    split_ifs at h
    cases h
    exact Or.inl ⟨rfl, rfl, le_rfl⟩
  | _ =>
    rw [Firmware.step] at h
    split_ifs at h
    cases h
    exact Or.inl ⟨rfl, rfl, le_rfl⟩

theorem time_le_of_step (h : s.step cfg e = .ok t) : s.time ≤ t.time := by
  rcases step_simulation_cases h with ⟨-, -, hle⟩ | ⟨heq, -⟩
  · exact hle
  · exact heq.ge

/-- **One event in a sleep**: the fiber goes on sleeping and keeps what it drives, or the time that
it waits for has come. -/
theorem sleeping_step {c : ChronoClock} {start duration : BitVec 32}
    (hsleep : s.sleeping f = some (c, start, duration)) (h : s.step cfg e = .ok t) :
    t.sleeping f = s.sleeping f ∧ s.Keeps t f ∨
      Modellbahn.asleep (s.now cfg c) start duration = false := by
  cases e with
  | cpu input =>
    obtain ⟨g, u, turn, -, hresume, ht⟩ := cpu_cases h
    obtain ⟨scheduler, rfl⟩ : ∃ scheduler, t = { u with scheduler := scheduler } := by
      rcases ht with ⟨-, rfl⟩ | ⟨-, ht⟩ | ⟨-, ht⟩
      · exact ⟨t.scheduler, rfl⟩
      · exact schedule_eq ht
      · exact schedule_eq ht
    have hscheduler : ({ u with scheduler := scheduler } : Firmware bs n).sleeping f =
        u.sleeping f := by cases f <;> rfl
    have hkeeps : u.Keeps { u with scheduler := scheduler } f := .of_eq rfl id rfl
    by_cases hf : f = g
    · subst hf
      rcases hresume.sleeping_self hsleep with rfl | hdue
      · exact Or.inl ⟨hscheduler, hkeeps⟩
      · exact Or.inr hdue
    · obtain ⟨hu, hkept⟩ := hresume.sleeping_of_ne hf
      exact Or.inl ⟨hscheduler.trans hu, hkept.trans hkeeps⟩
  | count =>
    cases h
    exact Or.inl ⟨by cases f <;> rfl, .of_eq rfl id rfl⟩
  | read =>
    rw [Firmware.step, Firmware.readByte] at h
    split_ifs at h
    cases h
    exact Or.inl ⟨by cases f <;> rfl, .of_eq rfl (fun hnone => by rw [hnone]; rfl) rfl⟩
  | _ =>
    rw [Firmware.step] at h
    split_ifs at h
    cases h
    exact Or.inl ⟨by cases f <;> rfl, .of_eq rfl id rfl⟩

/-- The reading of the clock in milliseconds, without a wrap around. -/
def milliTicks (cfg : Config) (s : Firmware bs n) : ℕ := ticks .milli cfg.frequency s.time

/-- After `p` passes since the reading `first`, of which the last one may not be over: how far the
clock has come. -/
def SpacedBy (cfg : Config) (first p : ℕ) (t : Firmware bs n) : Prop :=
  match t.simulation with
  | .pass => first + 100 * p ≤ t.milliTicks cfg
  | .sleep start => p = 0 ∨ ∃ a, a ≤ t.milliTicks cfg ∧ start = BitVec.ofNat 32 a ∧
      first + 100 * (p - 1) ≤ a
  | _ => first + 100 * (p - 1) ≤ t.milliTicks cfg

/-- The state `t` comes after `s`, and the passes in between are at least 100 ms apart. -/
structure Spaced (cfg : Config) (s t : Firmware bs n) : Prop where
  readings_le : s.readings.length ≤ t.readings.length
  ticks_le : s.milliTicks cfg ≤ t.milliTicks cfg
  spaced : SpacedBy cfg (s.milliTicks cfg) (t.readings.length - s.readings.length) t

namespace Spaced

theorem refl (cfg : Config) (s : Firmware bs n) : Spaced cfg s s := by
  refine ⟨le_rfl, le_rfl, ?_⟩
  rw [SpacedBy, Nat.sub_self]
  split
  · exact le_rfl
  · exact Or.inl rfl
  · exact le_rfl

theorem le (h : Spaced cfg s t) :
    s.milliTicks cfg + 100 * (t.readings.length - s.readings.length - 1) ≤ t.milliTicks cfg := by
  have hspaced := h.spaced
  have hle := h.ticks_le
  rw [SpacedBy] at hspaced
  split at hspaced
  · omega
  · rcases hspaced with hzero | ⟨a, ha, -, hfirst⟩
    · rw [hzero]
      exact hle
    · exact hfirst.trans ha
  · exact hspaced

theorem of_le (h : Spaced cfg s t) (hsimulation : u.simulation = t.simulation)
    (hreadings : u.readings = t.readings) (hle : t.milliTicks cfg ≤ u.milliTicks cfg) :
    Spaced cfg s u := by
  refine ⟨hreadings ▸ h.readings_le, h.ticks_le.trans hle, ?_⟩
  have hspaced := h.spaced
  rw [SpacedBy] at hspaced ⊢
  rw [hsimulation, hreadings]
  split at hspaced
  · exact hspaced.trans hle
  · rcases hspaced with hzero | ⟨a, ha, hstart, hfirst⟩
    · exact Or.inl hzero
    · exact Or.inr ⟨a, ha.trans hle, hstart, hfirst⟩
  · exact hspaced.trans hle

theorem of_resumes (h : Spaced cfg s t) (hresume : Resumes cfg t .simulation input u turn) :
    Spaced cfg s u := by
  have hreached := h.le
  have hspaced := h.spaced
  rw [SpacedBy] at hspaced
  cases hresume with
  | pass hpc hadvance =>
    rw [hpc] at hspaced
    have hle := h.readings_le
    refine ⟨by simpa using Nat.le_succ_of_le hle, h.ticks_le, ?_⟩
    have hcount : (t.readings ++ [input]).length - s.readings.length - 1 =
        t.readings.length - s.readings.length := by
      rw [List.length_append, List.length_singleton]
      omega
    change s.milliTicks cfg + 100 * ((t.readings ++ [input]).length - s.readings.length - 1) ≤ _
    rw [hcount]
    exact hspaced
  | notFound => exact ⟨h.readings_le, h.ticks_le, hreached⟩
  | write => exact ⟨h.readings_le, h.ticks_le, hreached⟩
  | fallAsleep => exact ⟨h.readings_le, h.ticks_le, Or.inr ⟨_, le_rfl, rfl, hreached⟩⟩
  | asleep => exact h
  | @wake _ start hpc hsleep =>
    rw [hpc] at hspaced
    refine ⟨h.readings_le, h.ticks_le, ?_⟩
    change s.milliTicks cfg + 100 * (t.readings.length - s.readings.length) ≤ t.milliTicks cfg
    rcases hspaced with hzero | ⟨a, ha, rfl, hfirst⟩
    · rw [hzero]
      exact h.ticks_le
    · -- The fiber has slept for 100 ms since its last pass.
      have hslept : a + 100 ≤ t.milliTicks cfg := le_sub_of_not_asleep ha hsleep
      omega

theorem step (hmin : 16 ≤ cfg.frequency) (hmax : cfg.frequency < 2 ^ 29) (h : Spaced cfg s t)
    (hstep : t.step cfg e = .ok u) : Spaced cfg s u := by
  have hmono : ∀ {v w : Firmware bs n}, v.time ≤ w.time → v.milliTicks cfg ≤ w.milliTicks cfg :=
    fun hle => monotone_ticks hmin hmax hle
  rcases step_simulation_cases hstep with
    ⟨hsimulation, hreadings, hle⟩ | ⟨htime, button, v, turn, hresume, hsimulation, hreadings⟩
  · exact h.of_le hsimulation hreadings (hmono hle)
  · have hv := h.of_resumes hresume
    have hvtime : v.time = t.time := by cases hresume <;> rfl
    exact hv.of_le hsimulation hreadings (hmono (by rw [hvtime, htime]))

end Spaced

end Firmware

/-- **Sleeps last.** From a state in which a fiber has just fallen asleep, whatever happens in
between: it sleeps on and what it drives stays as it is, the output buffer, CS, or the bridge, or
the clock that it waits for has advanced by the duration, by its readings without a wrap around. -/
theorem sleep_lasts (cfg : Config) (hmin : 16 ≤ cfg.frequency) (hmax : cfg.frequency < 2 ^ 29)
    (s t : Firmware bs n) (es : List FirmwareEvent) (f : FiberId) (c : ChronoClock)
    (duration : BitVec 32) (hsleep : s.sleeping f = some (c, s.now cfg c, duration))
    (hrun : s.run cfg es = .ok t) :
    t.sleeping f = s.sleeping f ∧ s.Keeps t f ∨
      ticks c cfg.frequency s.time + duration.toNat ≤ ticks c cfg.frequency t.time := by
  have hmono := monotone_ticks (c := c) hmin hmax
  have h := Machine.run_invariant (motive := fun u : Firmware bs n => s.time ≤ u.time ∧
    (u.sleeping f = s.sleeping f ∧ s.Keeps u f ∨
      ticks c cfg.frequency s.time + duration.toNat ≤ ticks c cfg.frequency u.time)) ?_
    ⟨le_rfl, Or.inl ⟨rfl, Firmware.Keeps.refl s f⟩⟩ hrun
  · exact h.2
  · intro u e v ⟨hle, hu⟩ hstep
    have htime := Firmware.time_le_of_step hstep
    refine ⟨hle.trans htime, ?_⟩
    rcases hu with ⟨hsleeping, hkeeps⟩ | hover
    · rcases Firmware.sleeping_step (hsleeping.trans hsleep) hstep with ⟨hv, hkept⟩ | hdue
      · exact Or.inl ⟨hv.trans hsleeping, hkeeps.trans hkept⟩
      · exact Or.inr ((le_sub_of_not_asleep (hmono hle) hdue).trans (hmono htime))
    · exact Or.inr (hover.trans (hmono htime))

/-- The driver fiber before the others. -/
def driverFirst : List FiberId := [.driverFiber, .expandControl, .measurement, .simulation]

/-- A clock with 1024 counts per second. -/
def slowConfig : Config := { frequency := 1024, maxvalue := 7199 }

/-- The driver fiber has set the bridge and sleeps on. -/
theorem sleep_lasts_driver :
    ∃ s t : Firmware boards 22,
      s.sleeping .driverFiber = some (.micro, s.now slowConfig .micro, 500) ∧
      s.run slowConfig [.count, .cpu false] = .ok t ∧
      (t.sleeping .driverFiber = s.sleeping .driverFiber ∧ s.Keeps t .driverFiber ∨
        ticks .micro slowConfig.frequency s.time + 500 ≤
          ticks .micro slowConfig.frequency t.time) := by
  have h : ((Firmware.boot Sim.initial driverFirst).bind fun boot : Firmware boards 22 =>
      (boot.run slowConfig (List.replicate 3 (.cpu false))).bind fun s =>
        (s.run slowConfig [.count, .cpu false]).map fun _ =>
          (s.sleeping .driverFiber, s.now slowConfig .micro)) =
      .ok (some (.micro, 0, 500), 0) := by decide +kernel
  obtain ⟨boot, -, h⟩ := Machine.exists_ok_of_bind h
  obtain ⟨s, -, h⟩ := Machine.exists_ok_of_bind h
  obtain ⟨t, ht, hvalues⟩ := Machine.exists_ok_of_map h
  obtain ⟨hsleeping, hnow⟩ := Prod.mk.inj hvalues
  have hsleep : s.sleeping .driverFiber = some (.micro, s.now slowConfig .micro, 500) := by
    rw [hsleeping, hnow]
  exact ⟨s, t, hsleep, ht, sleep_lasts slowConfig (by decide) (by decide) s t
    [.count, .cpu false] .driverFiber .micro 500 hsleep ht⟩

/-- **Passes are at least 100 ms apart.** Whatever the fibers and the hardware do from whatever
state on, if `k + 1` passes begin, then the clock has advanced by `100 * k` milliseconds at least,
by its readings without a wrap around. -/
theorem pass_spacing (cfg : Config) (hmin : 16 ≤ cfg.frequency) (hmax : cfg.frequency < 2 ^ 29)
    (s t : Firmware bs n) (es : List FirmwareEvent) (k : ℕ) (hrun : s.run cfg es = .ok t)
    (hpasses : s.readings.length + (k + 1) ≤ t.readings.length) :
    s.milliTicks cfg + 100 * k ≤ t.milliTicks cfg := by
  have h : s.Spaced cfg t := Machine.run_invariant
    (fun hs hstep => Firmware.Spaced.step hmin hmax hs hstep) (Firmware.Spaced.refl cfg s) hrun
  have hle := h.le
  omega

/-- The first pass with its 22 calls of `set_buffer`, and then 125 ms. -/
def firstPass : List FirmwareEvent := List.replicate 24 (.cpu false) ++ List.replicate 128 .count

/-- Twelve further steps. -/
def secondPass : List FirmwareEvent := List.replicate 12 (.cpu false)

theorem pass_spacing_two :
    ∃ s t : Firmware boards 22, Firmware.boot Sim.initial simulationFirst = .ok s ∧
      s.run slowConfig (firstPass ++ secondPass) = .ok t ∧
      s.milliTicks slowConfig + 100 * 1 ≤ t.milliTicks slowConfig := by
  have h : ((Firmware.boot Sim.initial simulationFirst).bind fun s : Firmware boards 22 =>
      (s.run slowConfig (firstPass ++ secondPass)).map fun t =>
        (s.readings.length, t.readings.length)) = .ok (0, 2) := by decide +kernel
  obtain ⟨s, hs, h⟩ := Machine.exists_ok_of_bind h
  obtain ⟨t, ht, hlengths⟩ := Machine.exists_ok_of_map h
  obtain ⟨hfirst, hlast⟩ := Prod.mk.inj hlengths
  exact ⟨s, t, hs, ht, pass_spacing slowConfig (by decide) (by decide) s t
    (firstPass ++ secondPass) 1 ht (by rw [hfirst, hlast])⟩

/-! ### A pass that is due -/

/-- The steps from here up to the next pass, where it is due. -/
def SimulationPc.cost : SimulationPc → ℕ
  | .pass => 1
  | _ => 2

/-- The steps from here up to the next yield, which comes last, at most. -/
def ControlPc.cost : ControlPc → ℕ
  | .set => 1
  | .poll => 2
  | .reset => 3
  | .sleep _ => 4

@[inherit_doc ControlPc.cost]
def MeasurementPc.cost : MeasurementPc → ℕ
  | .poll => 1
  | .start => 2
  | .sleep _ => 3

@[inherit_doc ControlPc.cost]
def DriverPc.cost : DriverPc → ℕ
  | .second => 1
  | .first => 2
  | .init => 3
  | .sleep _ => 3

namespace Firmware

variable {cfg : Config} {s₀ : Sim bs n} {s t u : Firmware bs n} {f : FiberId} {input : Bool}
  {turn : Turn} {e : FirmwareEvent}

/-- The steps of a fiber. -/
def cost (s : Firmware bs n) : FiberId → ℕ
  | .simulation => s.simulation.cost
  | .expandControl => s.control.cost
  | .measurement => s.measurement.cost
  | .driverFiber => s.driver.cost

theorem cost_pos (s : Firmware bs n) (f : FiberId) : 1 ≤ s.cost f := by
  cases f with
  | simulation => cases h : s.simulation <;> simp [cost, h, SimulationPc.cost]
  | expandControl => cases h : s.control <;> simp [cost, h, ControlPc.cost]
  | measurement => cases h : s.measurement <;> simp [cost, h, MeasurementPc.cost]
  | driverFiber => cases h : s.driver <;> simp [cost, h, DriverPc.cost]

/-- The steps of a fiber at most. -/
def maxCost : FiberId → ℕ
  | .simulation => 2
  | .expandControl => 4
  | .measurement => 3
  | .driverFiber => 3

theorem cost_le (s : Firmware bs n) (f : FiberId) : s.cost f ≤ maxCost f := by
  cases f with
  | simulation => cases h : s.simulation <;> simp [cost, h, SimulationPc.cost, maxCost]
  | expandControl => cases h : s.control <;> simp [cost, h, ControlPc.cost, maxCost]
  | measurement => cases h : s.measurement <;> simp [cost, h, MeasurementPc.cost, maxCost]
  | driverFiber => cases h : s.driver <;> simp [cost, h, DriverPc.cost, maxCost]

theorem cost_measurement_of_goesOn (h : (s.resumeMeasurement cfg input).2 = .goesOn) :
    (s.resumeMeasurement cfg input).1.measurement.cost + 1 ≤ s.measurement.cost := by
  rw [resumeMeasurement] at h ⊢
  cases hpc : s.measurement with
  | start => exact le_rfl
  | poll => cases input <;> simp [hpc] at h
  | sleep start =>
    simp only [hpc] at h ⊢
    split_ifs at h ⊢
    exact le_rfl

theorem cost_driver_of_goesOn (h : (s.resumeDriver cfg).2 = .goesOn) :
    (s.resumeDriver cfg).1.driver.cost + 1 ≤ s.driver.cost := by
  rw [resumeDriver] at h ⊢
  cases hpc : s.driver with
  | init => exact le_rfl
  | first => exact le_rfl
  | second => simp [hpc] at h
  | sleep start =>
    simp only [hpc] at h ⊢
    split_ifs at h ⊢
    exact le_rfl

/-- A step of another fiber than the simulation brings its yield nearer. -/
theorem Resumes.cost_lt (h : Resumes cfg s f input u turn) (hf : f ≠ .simulation)
    (hgoes : turn = .goesOn) : u.cost f + 1 ≤ s.cost f := by
  cases h with
  | reset hpc => simp [cost, hpc, ControlPc.cost]
  | transferEnd hpc => simp [cost, hpc, ControlPc.cost]
  | controlWake hpc => simp [cost, hpc, ControlPc.cost]
  | measurement hturn hresume =>
    have hcost := cost_measurement_of_goesOn ((congrArg Prod.snd hresume).trans hgoes)
    rw [hresume] at hcost
    exact hcost
  | driver hturn hresume =>
    have hcost := cost_driver_of_goesOn ((congrArg Prod.snd hresume).trans hgoes)
    rw [hresume] at hcost
    exact hcost
  | pollAgain => cases hgoes
  | set => cases hgoes
  | controlAsleep => cases hgoes
  | _ => exact absurd rfl hf

theorem Resumes.frame (h : Resumes cfg s f input u turn) (hf : f ≠ .simulation) :
    u.simulation = s.simulation ∧ u.readings = s.readings ∧
      ∀ g, g ≠ f → u.cost g = s.cost g := by
  cases h with
  | pass => exact absurd rfl hf
  | notFound => exact absurd rfl hf
  | write => exact absurd rfl hf
  | fallAsleep => exact absurd rfl hf
  | asleep => exact absurd rfl hf
  | wake => exact absurd rfl hf
  | _ =>
    refine ⟨rfl, rfl, fun g hg => ?_⟩
    cases g <;> first | rfl | exact absurd rfl hg

/-- The steps before the simulation fiber has its turn, at most. -/
def ahead (s : Firmware bs n) (ready : List FiberId) : ℕ :=
  ((ready.takeWhile (· ≠ .simulation)).map s.cost).sum

theorem ahead_simulation (s : Firmware bs n) (rest : List FiberId) :
    s.ahead (.simulation :: rest) = 0 := rfl

theorem ahead_cons (s : Firmware bs n) (hf : f ≠ .simulation) (rest : List FiberId) :
    s.ahead (f :: rest) = s.cost f + s.ahead rest := by
  simp [ahead, hf]

/-- Fibers behind the simulation fiber do not count. -/
theorem ahead_append (s : Firmware bs n) {ready : List FiberId} (h : .simulation ∈ ready)
    (rest : List FiberId) : s.ahead (ready ++ rest) = s.ahead ready := by
  induction ready with
  | nil => cases h
  | cons g ready ih =>
    by_cases hg : g = .simulation
    · rw [hg]
      rfl
    · have hmem : .simulation ∈ ready := (List.mem_cons.mp h).resolve_left fun he => hg he.symm
      rw [List.cons_append, ahead_cons s hg, ahead_cons s hg, ih hmem]

theorem ahead_congr {ready : List FiberId} (h : ∀ g ∈ ready, u.cost g = s.cost g) :
    u.ahead ready = s.ahead ready := by
  rw [ahead, ahead]
  congr 1
  exact List.map_congr_left fun g hg => h g ((List.takeWhile_sublist _).mem hg)

/-- The number of steps of fibers. -/
def cpus (es : List FirmwareEvent) : ℕ :=
  es.countP fun
    | .cpu _ => true
    | _ => false

/-- After `steps` steps of fibers from a state with `passes` passes, a further pass has begun, or
the simulation fiber is on the way to it, and twelve steps lead there. -/
def Awaits (passes : List Bool) (start : BitVec 32) (steps : ℕ) (t : Firmware bs n) : Prop :=
  passes.length < t.readings.length ∨
    t.readings = passes ∧ (t.simulation = .sleep start ∨ t.simulation = .pass) ∧
      ∃ f rest, Turns t.scheduler f rest ∧
        steps + t.ahead (f :: rest) + t.simulation.cost ≤ 12

namespace Awaits

variable {passes : List Bool} {start : BitVec 32} {steps : ℕ}

theorem of_eq (h : s.Awaits passes start steps) (hreadings : t.readings = s.readings)
    (hsimulation : t.simulation = s.simulation) (hscheduler : t.scheduler = s.scheduler)
    (hcost : t.cost = s.cost) : t.Awaits passes start steps := by
  have hahead : t.ahead = s.ahead := funext fun ready => by rw [ahead, ahead, hcost]
  rwa [Awaits, hreadings, hsimulation, hscheduler, hahead]

/-- **A step of a fiber** leads towards the pass. -/
theorem cpu (hfit : bs.Fits) (h₀ : s₀.Routed) (hsound : Sound s₀ s)
    (hdue : Modellbahn.asleep (s.now cfg .milli) start 100 = false)
    (h : s.Awaits passes start steps) (hstep : s.cpu cfg input = .ok t) :
    t.Awaits passes start (steps + 1) := by
  obtain ⟨f, u, turn, hcurrent, hresume, ht⟩ := cpu_cases hstep
  obtain ⟨f', rest, hturns⟩ := hsound.turns
  obtain rfl : f' = f := Option.some.inj (hturns.current.symm.trans hcurrent)
  have hturn := hresume.turn_ne_returns hfit h₀ hsound.tracked
  have hkept : u.readings.length ≤ t.readings.length := by
    rcases hresume.turns hturn hturns ht with ⟨-, rfl, -⟩ | ⟨-, g, rest', next, -, rfl, -⟩
    · exact le_rfl
    · exact le_rfl
  rcases h with hmore | ⟨hreadings, hplace, f'', rest'', hturns', hsteps⟩
  · have hgrow : s.readings.length ≤ u.readings.length := by
      cases hresume with
      | pass => simp
      | _ => exact le_rfl
    exact Or.inl (hmore.trans_le (hgrow.trans hkept))
  · obtain rfl : f'' = f' := Option.some.inj (hturns'.current.symm.trans hcurrent)
    by_cases hf : f'' = .simulation
    · subst hf
      rw [ahead_simulation] at hsteps
      have hends := hresume.turns hturn hturns' ht
      cases hresume with
      | pass =>
        rw [List.length_append, List.length_singleton] at hkept
        exact Or.inl (hreadings ▸ hkept)
      | notFound => exact absurd rfl hturn
      | write hpc => simp [hpc] at hplace
      | fallAsleep hpc => simp [hpc] at hplace
      | @asleep _ start' hpc hsleep =>
        obtain rfl : start' = start := by simpa [hpc] using hplace
        rw [hdue] at hsleep
        cases hsleep
      | wake hpc =>
        rcases hends with ⟨-, rfl, hnext⟩ | ⟨hyields, -⟩
        · refine Or.inr ⟨hreadings, Or.inr rfl, _, _, hnext, ?_⟩
          rw [hpc] at hsteps
          rw [ahead_simulation]
          simp only [SimulationPc.cost] at hsteps ⊢
          omega
        · cases hyields
    · obtain ⟨hsimulation, hpasses, hcosts⟩ := hresume.frame hf
      have hsum := ahead_cons s hf rest''
      have hrest : u.ahead rest'' = s.ahead rest'' := ahead_congr fun g hg =>
        hcosts g fun he => (List.nodup_cons.mp hturns'.nodup).1 (he ▸ hg)
      rcases hresume.turns hturn hturns' ht with
        ⟨hgoes, rfl, hnext⟩ | ⟨-, g, rest', next, rfl, rfl, hnext⟩
      · have hcost := hresume.cost_lt hf hgoes
        refine Or.inr ⟨hpasses.trans hreadings, by rwa [hsimulation], _, _, hnext, ?_⟩
        rw [ahead_cons t hf, hrest, hsimulation]
        omega
      · have hcost := s.cost_pos f''
        have hmem : .simulation ∈ g :: rest' :=
          (List.mem_cons.mp (hturns'.mem .simulation)).resolve_left fun he => hf he.symm
        refine Or.inr ⟨hpasses.trans hreadings, by rwa [← hsimulation] at hplace, _, _, hnext, ?_⟩
        have hahead : ({ u with scheduler := next } : Firmware bs n).ahead
            (g :: (rest' ++ [f''])) = u.ahead (g :: rest') := ahead_append u hmem [f'']
        rw [hahead, hrest]
        change steps + 1 + s.ahead (g :: rest') + u.simulation.cost ≤ 12
        rw [hsimulation]
        omega

theorem step (hfit : bs.Fits) (h₀ : s₀.Routed) (hsound : Sound s₀ s)
    (hdue : Modellbahn.asleep (s.now cfg .milli) start 100 = false)
    (h : s.Awaits passes start steps) (hstep : s.step cfg e = .ok t) :
    t.Awaits passes start (steps + cpus [e]) := by
  cases e with
  | cpu input => exact h.cpu hfit h₀ hsound hdue hstep
  | count =>
    cases hstep
    exact h.of_eq rfl rfl rfl rfl
  | read =>
    rw [Firmware.step, Firmware.readByte] at hstep
    split_ifs at hstep
    cases hstep
    exact h.of_eq rfl rfl rfl rfl
  | _ =>
    rw [Firmware.step] at hstep
    split_ifs at hstep
    cases hstep
    exact h.of_eq rfl rfl rfl rfl

end Awaits

/-- The other fibers make ten steps at most before the simulation fiber has its turn. -/
theorem Turns.ahead_le {rest : List FiberId} (h : Turns s.scheduler f rest) :
    s.ahead (f :: rest) ≤ 10 := by
  have hsubset : (f :: rest).takeWhile (· ≠ .simulation) ⊆
      [.expandControl, .measurement, .driverFiber] := by
    intro g hg
    have hne : g ≠ .simulation := by simpa using List.mem_takeWhile_imp hg
    cases g <;> simp at hne ⊢
  have hnodup := h.nodup.sublist (List.takeWhile_sublist (· ≠ .simulation))
  obtain ⟨l, hperm, hsublist⟩ := List.subperm_of_subset hnodup hsubset
  calc s.ahead (f :: rest)
      ≤ (((f :: rest).takeWhile (· ≠ .simulation)).map maxCost).sum :=
        List.sum_le_sum fun g _ => s.cost_le g
    _ = (l.map maxCost).sum := (hperm.map maxCost).sum_eq.symm
    _ ≤ ([.expandControl, .measurement, .driverFiber].map maxCost).sum :=
        List.Sublist.sum_le_sum (hsublist.map maxCost) fun _ _ => Nat.zero_le _
    _ = 10 := rfl

/-- A fiber that is due stays due while the clock advances, up to its wrap around. -/
theorem asleep_of_due {a b : ℕ} {start duration : BitVec 32} (hle : a ≤ b)
    (hdue : duration.toNat ≤ (BitVec.ofNat 32 a - start).toNat)
    (hwrap : (BitVec.ofNat 32 a - start).toNat + (b - a) < 2 ^ 32) :
    Modellbahn.asleep (BitVec.ofNat 32 b) start duration = false := by
  obtain ⟨d, rfl⟩ := Nat.exists_eq_add_of_le hle
  have hsplit :
      BitVec.ofNat 32 (a + d) - start = BitVec.ofNat 32 a - start + BitVec.ofNat 32 d := by
    rw [BitVec.ofNat_add, BitVec.sub_eq_add_neg, BitVec.sub_eq_add_neg]
    ac_rfl
  rw [Nat.add_sub_cancel_left] at hwrap
  rw [Modellbahn.asleep, hsplit, decide_eq_false_iff_not, BitVec.lt_def, BitVec.toNat_add,
    BitVec.toNat_ofNat, Nat.mod_eq_of_lt (show d < 2 ^ 32 by omega), Nat.mod_eq_of_lt hwrap]
  omega

end Firmware

/-- **A pass that is due is made soon.** In every run, if the simulation fiber sleeps and its 100 ms
are over, by what it reads of the clock, then a pass has begun after any further events with twelve
steps of fibers, unless the clock wraps around before. -/
theorem due_pass_within (cfg : Config) (hmin : 16 ≤ cfg.frequency) (hmax : cfg.frequency < 2 ^ 29)
    (order : List FiberId) (horder : ∀ f, f ∈ order) (boot s t : Firmware boards 22)
    (es es' : List FirmwareEvent) (start : BitVec 32)
    (hboot : Firmware.boot Sim.initial order = .ok boot) (hs : boot.run cfg es = .ok s)
    (ht : s.run cfg es' = .ok t) (hsleep : s.simulation = .sleep start)
    (hdue : 100 ≤ (s.now cfg .milli - start).toNat)
    (hwrap : (s.now cfg .milli - start).toNat + (t.milliTicks cfg - s.milliTicks cfg) < 2 ^ 32)
    (hcpus : 12 ≤ Firmware.cpus es') : s.readings.length < t.readings.length := by
  have hsound := (Firmware.Sound.of_boot horder hboot).run boards_fits routed_initial hs
  obtain ⟨f, rest, hturns⟩ := hsound.turns
  have hstart : s.Awaits s.readings start 0 := by
    refine Or.inr ⟨rfl, Or.inl hsleep, f, rest, hturns, ?_⟩
    have hahead := hturns.ahead_le (s := s)
    rw [hsleep]
    simp only [SimulationPc.cost]
    omega
  have hmono := monotone_ticks (c := .milli) hmin hmax
  have hrun := Machine.run_history (motive := fun es u => s.time ≤ u.time ∧
    Firmware.Sound Sim.initial u ∧
      (u.time ≤ t.time → u.Awaits s.readings start (Firmware.cpus es))) ?_
    ⟨le_rfl, hsound, fun _ => hstart⟩ ht
  · rcases hrun.2.2 le_rfl with hmore | ⟨-, -, f, rest, -, hsteps⟩
    · exact hmore
    · have hcost : 1 ≤ t.simulation.cost := t.cost_pos .simulation
      omega
  · intro es u e v ⟨hle, hu, hawaits⟩ hstep
    have htime := Firmware.time_le_of_step hstep
    refine ⟨hle.trans htime, hu.step boards_fits routed_initial hstep, fun hlast => ?_⟩
    have hu' := htime.trans hlast
    have hdue' : asleep (u.now cfg .milli) start 100 = false := by
      refine Firmware.asleep_of_due (hmono hle) hdue (lt_of_le_of_lt ?_ hwrap)
      exact Nat.add_le_add_left (Nat.sub_le_sub_right (hmono hu') _) _
    have hnext := (hawaits hu').step boards_fits routed_initial hu hdue' hstep
    simpa only [Firmware.cpus, List.countP_append] using hnext

/-- After the first pass and 125 ms the second one is due. -/
theorem due_pass_within_two :
    ∃ boot s t : Firmware boards 22, Firmware.boot Sim.initial simulationFirst = .ok boot ∧
      boot.run slowConfig firstPass = .ok s ∧ s.run slowConfig secondPass = .ok t ∧
      s.readings.length < t.readings.length := by
  have h : ((Firmware.boot Sim.initial simulationFirst).bind fun boot : Firmware boards 22 =>
      (boot.run slowConfig firstPass).bind fun s => (s.run slowConfig secondPass).map fun t =>
        (s.simulation, s.now slowConfig .milli, s.milliTicks slowConfig, t.milliTicks slowConfig)) =
      .ok (.sleep 0, 125, 125, 125) := by decide +kernel
  obtain ⟨boot, hboot, h⟩ := Machine.exists_ok_of_bind h
  obtain ⟨s, hs, h⟩ := Machine.exists_ok_of_bind h
  obtain ⟨t, ht, hvalues⟩ := Machine.exists_ok_of_map h
  simp only [Prod.mk.injEq] at hvalues
  obtain ⟨hsleep, hnow, hfirst, hlast⟩ := hvalues
  exact ⟨boot, s, t, hboot, hs, ht, due_pass_within slowConfig (by decide) (by decide)
    simulationFirst mem_simulationFirst boot s t firstPass secondPass 0 hboot hs ht hsleep
    (by rw [hnow]; decide) (by rw [hnow, hfirst, hlast]; decide) (by decide)⟩

/-! ### The inputs of the bridge -/

/-- The variable `steper`, the inputs and the enable input at each place of `driver_fiber`. -/
def DriverPc.Drives (half : ℕ) : DriverPc → Bridge → Prop
  | .init, b => b = ⟨0, 0, 0, false⟩
  | .first, b => b = ⟨0, 0, 0, true⟩ ∨ b = ⟨1, 0, half, true⟩ ∨ b = ⟨-1, half, 0, true⟩
  | .second, b => b = ⟨0, 0, 0, true⟩ ∨ b = ⟨1, half, half, true⟩ ∨ b = ⟨-1, 0, 0, true⟩
  | .sleep _, b => b = ⟨1, 0, half, true⟩ ∨ b = ⟨-1, half, 0, true⟩

/-- In the middle of a turn. -/
def DriverPc.Busy (pc : DriverPc) : Prop := pc = .first ∨ pc = .second

namespace Firmware

variable {cfg : Config} {s₀ : Sim bs n} {s t u : Firmware bs n} {f : FiberId} {input : Bool}
  {turn : Turn} {e : FirmwareEvent}

/-- The bridge is driven, and nothing else runs in the middle of a turn of `driver_fiber`. -/
structure Drives (cfg : Config) (s : Firmware bs n) : Prop where
  drives : s.driver.Drives (cfg.maxvalue / 2) s.bridge
  current : s.driver.Busy → s.scheduler.current = some .driverFiber

theorem Resumes.driver_eq (h : Resumes cfg s f input u turn) (hf : f ≠ .driverFiber) :
    u.driver = s.driver ∧ u.bridge = s.bridge := by
  cases h with
  | driver => exact absurd rfl hf
  | _ => exact ⟨rfl, rfl⟩

theorem drives_resumeDriver (h : s.driver.Drives (cfg.maxvalue / 2) s.bridge) :
    (s.resumeDriver cfg).1.driver.Drives (cfg.maxvalue / 2) (s.resumeDriver cfg).1.bridge ∧
      ((s.resumeDriver cfg).2 = .yields → ¬ (s.resumeDriver cfg).1.driver.Busy) := by
  rw [resumeDriver]
  cases hpc : s.driver with
  | init => exact ⟨Or.inl rfl, by simp⟩
  | first =>
    rw [hpc] at h
    refine ⟨?_, by simp⟩
    rcases h with h | h | h
    · exact Or.inl (by simp [h])
    · exact Or.inr (Or.inl (by simp [h]))
    · exact Or.inr (Or.inr (by simp [h]))
  | second =>
    rw [hpc] at h
    refine ⟨?_, by simp [DriverPc.Busy]⟩
    rcases h with h | h | h
    · exact Or.inl (by simp [h])
    · exact Or.inr (by simp [h])
    · exact Or.inl (by simp [h])
  | sleep start =>
    rw [hpc] at h
    dsimp only
    split_ifs
    · exact ⟨by rwa [hpc], by simp [DriverPc.Busy, hpc]⟩
    · exact ⟨Or.inr h, by simp⟩

namespace Drives

theorem of_eq (h : s.Drives cfg) (hdriver : t.driver = s.driver) (hbridge : t.bridge = s.bridge)
    (hscheduler : t.scheduler = s.scheduler) : t.Drives cfg := by
  constructor
  · rw [hdriver, hbridge]
    exact h.drives
  · rw [hdriver, hscheduler]
    exact h.current

/-- **A step of a fiber.** -/
theorem cpu (h : s.Drives cfg) (hstep : s.cpu cfg input = .ok t) : t.Drives cfg := by
  obtain ⟨f, u, turn, hcurrent, hresume, ht⟩ := cpu_cases hstep
  obtain ⟨scheduler, rfl⟩ : ∃ scheduler, t = { u with scheduler := scheduler } := by
    rcases ht with ⟨-, rfl⟩ | ⟨-, ht⟩ | ⟨-, ht⟩
    · exact ⟨t.scheduler, rfl⟩
    · exact schedule_eq ht
    · exact schedule_eq ht
  by_cases hf : f = .driverFiber
  · subst hf
    cases hresume with
    | driver hturn hresume =>
      obtain ⟨hdrives, hbusy⟩ := drives_resumeDriver h.drives
      rw [hresume] at hdrives hbusy
      refine ⟨hdrives, fun hb => ?_⟩
      rcases ht with ⟨-, ht⟩ | ⟨hyields, -⟩ | ⟨hreturns, -⟩
      · rw [ht]
        exact hcurrent
      · exact absurd hb (hbusy hyields)
      · exact absurd hreturns hturn
  · obtain ⟨hdriver, hbridge⟩ := hresume.driver_eq hf
    refine ⟨?_, fun hb => ?_⟩
    · change u.driver.Drives _ u.bridge
      rw [hdriver, hbridge]
      exact h.drives
    · -- The running fiber is not `driver_fiber`, which is not in the middle of its turn.
      have hcurrent' := h.current (by rwa [← hdriver])
      exact absurd (Option.some.inj (hcurrent.symm.trans hcurrent')) hf

theorem step (h : s.Drives cfg) (hstep : s.step cfg e = .ok t) : t.Drives cfg := by
  cases e with
  | cpu input => exact h.cpu hstep
  | count =>
    cases hstep
    exact h.of_eq rfl rfl rfl
  | read =>
    rw [Firmware.step, Firmware.readByte] at hstep
    split_ifs at hstep
    cases hstep
    exact h.of_eq rfl rfl rfl
  | _ =>
    rw [Firmware.step] at hstep
    split_ifs at hstep
    cases hstep
    exact h.of_eq rfl rfl rfl

theorem of_boot {order : List FiberId} (hboot : boot s₀ order = .ok s) : s.Drives cfg := by
  rw [boot] at hboot
  split at hboot
  · cases hboot
  · cases hboot
    exact ⟨rfl, by simp [DriverPc.Busy]⟩

end Drives

end Firmware

end Modellbahn
