import Modellbahn.Firmware.Timing
import Modellbahn.Sensors.AdcSampler

/-!
# The measurement fiber and the sampler

The fiber `measurement` of `src/main.cpp` with the sampler it reads: it starts a readout, polls
`isReadoutFinished`, logs the three values and sleeps. It ignores the result of `startReadout`. The
other fibers run as before, and a conversion may end between any two steps. The call of
`startReadout` is one of these steps: `Paced.away` says that no conversion is running then, so there
is none to end between its statements.

The arrays that `Adapter_A::initialize` hands to the sampler are local to it, so nothing protects
them when it has returned. They may be overwritten at any time here. What the fiber logs are
averages where they are not. The other way round, the sampler goes on writing to that memory; it is
an assumption that this changes nothing of the rest of the firmware.

## Main definitions

* `Modellbahn.Station`, `Modellbahn.Station.step`: the firmware with the sampler, and one event.
* `Modellbahn.Station.Moves`: what an event does.
* `Modellbahn.Station.Paced`: the conversions and the lines in step with each other.
* `Modellbahn.Station.Valued`: the values where the arrays are kept.

## Main results

* `Modellbahn.Station.exists_firmware_run`: the firmware runs as without the sampler.
* `Modellbahn.measurement_paced`: a readout for each line, and no readout is refused.
* `Modellbahn.measurement_lines`: the lines are the averages of their readouts.
-/

namespace Modellbahn

variable {χ : Type*} {bs : BoardTable} {n : ℕ}

namespace Firmware

variable {cfg : Config} {s t : Firmware bs n} {input : Bool}

theorem measurement_of_cpu (h : s.cpu cfg input = .ok t) :
    t.measurement = if s.scheduler.current = some .measurement then
      (s.resumeMeasurement cfg input).1.measurement else s.measurement := by
  obtain ⟨f, u, turn, hcurrent, hresume, ht⟩ := cpu_cases h
  obtain ⟨scheduler, rfl⟩ : ∃ scheduler, t = { u with scheduler := scheduler } := by
    rcases ht with ⟨-, rfl⟩ | ⟨-, ht⟩ | ⟨-, ht⟩
    · exact ⟨t.scheduler, rfl⟩
    · exact schedule_eq ht
    · exact schedule_eq ht
  rw [hcurrent]
  cases hresume with
  | measurement hturn hmeasurement => rw [if_pos rfl, hmeasurement]
  | _ => rw [if_neg (by simp)]

theorem ne_poll_of_start (h : s.measurement = .start) : s.measurement ≠ .poll := by
  rw [h]
  exact MeasurementPc.noConfusion

/-- The hardware leaves `measurement` where it is. -/
theorem measurement_of_step {e : FirmwareEvent} (he : ∀ input, e ≠ .cpu input)
    (h : s.step cfg e = .ok t) : t.measurement = s.measurement := by
  cases e with
  | count =>
    cases h
    rfl
  | cpu input => exact absurd rfl (he input)
  | read =>
    rw [Firmware.step, Firmware.readByte] at h
    split_ifs at h
    cases h
    rfl
  | _ =>
    rw [Firmware.step] at h
    split_ifs at h
    cases h
    rfl

end Firmware

/-- The firmware with the sampler, and the lines that `measurement` has logged. -/
structure Station (χ : Type*) (bs : BoardTable) (n : ℕ) where
  firmware : Firmware bs n
  sampler : AdcSampler sensors χ
  lines : List (Vector (BitVec sensors.dataWidth) sensors.channels)

/-- What happens. -/
inductive StationEvent (χ : Type*)
  /-- An event of the firmware. -/
  | firmware (e : FirmwareEvent)
  /-- A conversion ends. -/
  | conversion (input : χ → BitVec 16)
  /-- The memory of the arrays is used otherwise. -/
  | overwrite (map : Vector χ sensors.channels)
    (data : Vector (BitVec sensors.dataWidth) sensors.channels)

namespace Station

/-- What the step of `measurement` from this place does to the sampler and the log. -/
def measure (s : Station χ bs n) : Station χ bs n :=
  match s.firmware.measurement with
  | .start => { s with sampler := s.sampler.startReadout.1 }
  | .poll => if s.sampler.newData then { s with lines := s.lines ++ [s.sampler.data] } else s
  | .sleep _ => s

/-- One event. `isReadoutFinished` is the flag of the sampler. -/
def step (cfg : Config) (s : Station χ bs n) :
    StationEvent χ → Except FirmwareFault (Station χ bs n)
  | .firmware (.cpu button) =>
    if s.firmware.scheduler.current = some .measurement then
      (s.firmware.cpu cfg s.sampler.newData).map fun t => { s.measure with firmware := t }
    else (s.firmware.cpu cfg button).map fun t => { s with firmware := t }
  | .firmware e => (s.firmware.step cfg e).map fun t => { s with firmware := t }
  | .conversion input =>
    match s.sampler.step (.conversion input) with
    | .ok sampler => .ok { s with sampler := sampler }
    | .error _ => .error .notReady
  | .overwrite map data => .ok { s with sampler := { s.sampler with map := map, data := data } }

/-- The state at the start of the scheduler. -/
def initial (boot : Firmware bs n) (mapping : Vector χ sensors.channels)
    (data : Vector (BitVec sensors.dataWidth) sensors.channels) : Station χ bs n where
  firmware := boot
  sampler := AdcSampler.initial mapping data
  lines := []

/-- The inputs at the conversions. -/
def conversions (events : List (StationEvent χ)) : List (χ → BitVec 16) :=
  events.filterMap fun
    | .conversion input => some input
    | _ => none

/-- What an event does. -/
inductive Moves (cfg : Config) (s : Station χ bs n) : StationEvent χ → Station χ bs n → Prop
  /-- No statement of `measurement`, or one in its sleep. -/
  | firmware {e e' : FirmwareEvent} {t : Firmware bs n} (hstep : s.firmware.step cfg e' = .ok t)
    (hpc : (t.measurement = .poll ↔ s.firmware.measurement = .poll)) :
    Moves cfg s (.firmware e) { s with firmware := t }
  | startReadout {e e' : FirmwareEvent} {t : Firmware bs n}
    (hstep : s.firmware.step cfg e' = .ok t) (hstart : s.firmware.measurement = .start)
    (hpoll : t.measurement = .poll) :
    Moves cfg s (.firmware e) { s with firmware := t, sampler := s.sampler.startReadout.1 }
  | line {e e' : FirmwareEvent} {t : Firmware bs n} (hstep : s.firmware.step cfg e' = .ok t)
    (hpoll : s.firmware.measurement = .poll) (hnew : s.sampler.newData = true)
    (hsleep : t.measurement ≠ .poll) :
    Moves cfg s (.firmware e) { s with firmware := t, lines := s.lines ++ [s.sampler.data] }
  | conversion {input : χ → BitVec 16} {sampler : AdcSampler sensors χ}
    (hstep : s.sampler.step (.conversion input) = .ok sampler) :
    Moves cfg s (.conversion input) { s with sampler := sampler }
  | overwrite (map : Vector χ sensors.channels)
    (data : Vector (BitVec sensors.dataWidth) sensors.channels) :
    Moves cfg s (.overwrite map data)
      { s with sampler := { s.sampler with map := map, data := data } }

variable {cfg : Config} {s t : Station χ bs n} {e : StationEvent χ}

theorem moves_of_measure {button : Bool} {u : Firmware bs n}
    (hcurrent : s.firmware.scheduler.current = some .measurement)
    (h : s.firmware.cpu cfg s.sampler.newData = .ok u) :
    Moves cfg s (.firmware (.cpu button)) { s.measure with firmware := u } := by
  have hpc := Firmware.measurement_of_cpu h
  have hstep : s.firmware.step cfg (.cpu s.sampler.newData) = .ok u := h
  rw [if_pos hcurrent, Firmware.resumeMeasurement] at hpc
  rw [measure]
  cases hplace : s.firmware.measurement with
  | start =>
    rw [hplace] at hpc
    exact .startReadout hstep hplace hpc
  | poll =>
    rw [hplace] at hpc
    cases hnew : s.sampler.newData with
    | false =>
      rw [hnew] at hpc
      exact .firmware hstep (iff_of_true (hpc.trans hplace) hplace)
    | true =>
      rw [hnew] at hpc
      refine .line hstep hplace hnew fun hpoll => ?_
      rw [hpoll] at hpc
      cases hpc
  | sleep start =>
    rw [hplace] at hpc
    have haway : s.firmware.measurement ≠ .poll := by
      rw [hplace]
      exact MeasurementPc.noConfusion
    refine .firmware hstep (iff_of_false (fun hpoll => ?_) haway)
    rw [hpoll] at hpc
    dsimp only at hpc
    split_ifs at hpc
    exact haway hpc.symm

theorem moves_of_step (h : s.step cfg e = .ok t) : Moves cfg s e t := by
  cases e with
  | firmware e =>
    by_cases hcpu : ∃ button, e = .cpu button
    · obtain ⟨button, rfl⟩ := hcpu
      rw [step] at h
      split_ifs at h with hcurrent
      · obtain ⟨u, hu, rfl⟩ := Machine.exists_ok_of_map h
        exact moves_of_measure hcurrent hu
      · obtain ⟨u, hu, rfl⟩ := Machine.exists_ok_of_map h
        have hstep : s.firmware.step cfg (.cpu button) = .ok u := hu
        have hpc := Firmware.measurement_of_cpu hu
        rw [if_neg hcurrent] at hpc
        exact .firmware hstep (by rw [hpc])
    · rw [step] at h
      · obtain ⟨u, hu, rfl⟩ := Machine.exists_ok_of_map h
        have hpc := Firmware.measurement_of_step (fun button he => hcpu ⟨button, he⟩) hu
        exact .firmware hu (by rw [hpc])
      · exact fun button he => hcpu ⟨button, he⟩
  | conversion input =>
    rw [step] at h
    cases hsampler : s.sampler.step (.conversion input) with
    | error e =>
      rw [hsampler] at h
      cases h
    | ok sampler =>
      rw [hsampler] at h
      cases h
      exact .conversion hsampler
  | overwrite map data =>
    cases h
    exact .overwrite map data

/-- **The firmware runs as without the sampler**, so what holds in its runs holds here. -/
theorem exists_firmware_run {events : List (StationEvent χ)}
    (hrun : Machine.run (step cfg) s events = .ok t) :
    ∃ es, s.firmware.run cfg es = .ok t.firmware := by
  refine Machine.run_history (motive := fun _ t => ∃ es, s.firmware.run cfg es = .ok t.firmware) ?_
    ⟨[], rfl⟩ hrun
  intro events u e t ⟨es, hes⟩ hstep
  cases moves_of_step hstep with
  | firmware hfirmware => exact ⟨es ++ [_], Machine.run_concat_eq_ok.mpr ⟨_, hes, hfirmware⟩⟩
  | startReadout hfirmware => exact ⟨es ++ [_], Machine.run_concat_eq_ok.mpr ⟨_, hes, hfirmware⟩⟩
  | line hfirmware => exact ⟨es ++ [_], Machine.run_concat_eq_ok.mpr ⟨_, hes, hfirmware⟩⟩
  | conversion => exact ⟨es, hes⟩
  | overwrite => exact ⟨es, hes⟩

/-! ### Readouts and lines -/

theorem append_conversions_firmware (readings : List (χ → BitVec 16)) (e : FirmwareEvent) :
    readings ++ conversions [.firmware e] = readings := List.append_nil readings

theorem append_conversions_overwrite (readings : List (χ → BitVec 16))
    (map : Vector χ sensors.channels) (data : Vector (BitVec sensors.dataWidth) sensors.channels) :
    readings ++ conversions [.overwrite map data] = readings := List.append_nil readings

/-- The conversions since the last line. -/
def window (s : Station χ bs n) (readings : List (χ → BitVec 16)) : List (χ → BitVec 16) :=
  readings.drop (301 * s.lines.length)

/-- **The conversions and the lines in step.** The conversions since the last line are those of the
readout that `measurement` waits for, and there are none where it does not. -/
structure Paced (s : Station χ bs n) (readings : List (χ → BitVec 16)) : Prop where
  lines_le : 301 * s.lines.length ≤ readings.length
  poll : s.firmware.measurement = .poll → s.sampler.Reading (s.window readings).length ∨
    s.sampler.Idle ∧ s.sampler.newData = true ∧ (s.window readings).length = 301
  away : s.firmware.measurement ≠ .poll → s.sampler.Idle ∧ (s.window readings).length = 0

theorem window_concat {readings : List (χ → BitVec 16)} (h : s.Paced readings)
    (input : χ → BitVec 16) : s.window (readings ++ [input]) = s.window readings ++ [input] :=
  List.drop_append_of_le_length h.lines_le

theorem readoutLength_sensors : sensors.readoutLength = 301 := by decide

theorem not_endless_sensors : ¬ sensors.Endless := by decide

/-- A conversion ends in a readout only. -/
theorem Paced.reading {readings : List (χ → BitVec 16)} (h : s.Paced readings)
    {input : χ → BitVec 16} {sampler : AdcSampler sensors χ}
    (hstep : s.sampler.step (.conversion input) = .ok sampler) :
    s.firmware.measurement = .poll ∧ s.sampler.Reading (s.window readings).length := by
  have hidle : ¬ s.sampler.Idle := by
    intro hidle
    rw [AdcSampler.step, hidle.selected_eq] at hstep
    cases hstep
  by_cases hpoll : s.firmware.measurement = .poll
  · rcases h.poll hpoll with hreading | ⟨hidle', -⟩
    · exact ⟨hpoll, hreading⟩
    · exact absurd hidle' hidle
  · exact absurd (h.away hpoll).1 hidle

theorem length_window (s : Station χ bs n) (readings : List (χ → BitVec 16)) :
    (s.window readings).length = readings.length - 301 * s.lines.length := List.length_drop

theorem paced_step {readings : List (χ → BitVec 16)} (h : s.Paced readings)
    (hmoves : Moves cfg s e t) : t.Paced (readings ++ conversions [e]) := by
  cases hmoves with
  | firmware hstep hpc =>
    rw [append_conversions_firmware]
    exact ⟨h.lines_le, fun hp => h.poll (hpc.mp hp), fun hn => h.away fun hp => hn (hpc.mpr hp)⟩
  | startReadout hstep hstart hpoll =>
    rw [append_conversions_firmware]
    obtain ⟨hidle, hwindow⟩ := h.away (Firmware.ne_poll_of_start hstart)
    refine ⟨h.lines_le, fun _ => .inl ?_, fun hn => absurd hpoll hn⟩
    exact hwindow ▸ (AdcSampler.startReadout_reading s.sampler hidle.samples_eq).1
  | line hstep hpoll hnew hsleep =>
    rw [append_conversions_firmware]
    rcases h.poll hpoll with hreading | ⟨hidle, -, hwindow⟩
    · rw [hreading.newData_eq] at hnew
      cases hnew
    · rw [length_window] at hwindow
      have hlines : (s.lines ++ [s.sampler.data]).length = s.lines.length + 1 := List.length_append
      refine ⟨?_, fun hp => absurd hp hsleep, fun _ => ⟨hidle, ?_⟩⟩
      · simp only [hlines]
        omega
      · simp only [length_window, hlines]
        omega
  | @conversion input sampler hstep =>
    obtain ⟨hpoll, hreading⟩ := h.reading hstep
    have hwindow : (s.window (readings ++ [input])).length = (s.window readings).length + 1 := by
      rw [window_concat h, List.length_append, List.length_singleton]
    have hlines := h.lines_le
    obtain ⟨channel, hselected⟩ := hreading.running
    rw [AdcSampler.step_conversion hreading not_endless_sensors hselected,
      readoutLength_sensors, Except.ok.injEq] at hstep
    refine ⟨?_, fun _ => ?_, fun hn => absurd hpoll hn⟩
    · exact Nat.le_trans hlines (by simp)
    · change sampler.Reading (s.window (readings ++ [input])).length ∨
        sampler.Idle ∧ sampler.newData = true ∧ (s.window (readings ++ [input])).length = 301
      rw [hwindow]
      split_ifs at hstep with hk
      · exact .inl (hstep ▸ AdcSampler.proceed_reading hreading not_endless_sensors _ hk)
      · have hlt : (s.window readings).length < 301 := hreading.lt_length
        exact .inr ⟨hstep ▸ AdcSampler.finish_idle hreading _, hstep ▸ rfl, by omega⟩
  | overwrite map data =>
    rw [append_conversions_overwrite]
    refine ⟨h.lines_le, fun hp => ?_, fun hn => ⟨⟨(h.away hn).1.1, (h.away hn).1.2⟩, (h.away hn).2⟩⟩
    rcases h.poll hp with hr | ⟨hidle, hnew, hwindow⟩
    · exact .inl ⟨hr.index_eq, hr.running, hr.newData_eq, hr.samples_eq, hr.lt_length⟩
    · exact .inr ⟨⟨hidle.1, hidle.2⟩, hnew, hwindow⟩

theorem conversions_concat (events : List (StationEvent χ)) (e : StationEvent χ) :
    conversions (events ++ [e]) = conversions events ++ conversions [e] :=
  List.filterMap_append

theorem paced_initial {boot : Firmware bs n} (hstart : boot.measurement = .start)
    (mapping : Vector χ sensors.channels)
    (data : Vector (BitVec sensors.dataWidth) sensors.channels) :
    (initial boot mapping data).Paced [] := by
  refine ⟨Nat.le_refl _, fun hpoll => ?_, fun _ => ⟨⟨rfl, rfl⟩, rfl⟩⟩
  exact absurd hpoll (Firmware.ne_poll_of_start hstart)

theorem paced_run {boot : Firmware bs n} (hstart : boot.measurement = .start)
    {mapping : Vector χ sensors.channels}
    {data : Vector (BitVec sensors.dataWidth) sensors.channels} {events : List (StationEvent χ)}
    (hrun : Machine.run (step cfg) (initial boot mapping data) events = .ok s) :
    s.Paced (conversions events) := by
  refine Machine.run_history (motive := fun events s => s.Paced (conversions events)) ?_
    (paced_initial hstart mapping data) hrun
  intro events s e t hs hstep
  rw [conversions_concat]
  exact paced_step hs (moves_of_step hstep)

/-! ### The values of the lines -/

/-- The conversions of a readout. -/
def readout (readings : List (χ → BitVec 16)) (i : ℕ) : List (χ → BitVec 16) :=
  (readings.drop (301 * i)).take 301

theorem readout_append {readings more : List (χ → BitVec 16)} {i : ℕ}
    (h : 301 * i + 301 ≤ readings.length) : readout (readings ++ more) i = readout readings i := by
  have hdrop : 301 ≤ (readings.drop (301 * i)).length := by
    rw [List.length_drop]
    omega
  rw [readout, List.drop_append_of_le_length (by omega), List.take_append_of_le_length hdrop,
    readout]

/-- **The values**, where the arrays are kept: the lines are averages, and so will be the next one.
-/
structure Valued (mapping : Vector χ sensors.channels) (s : Station χ bs n)
    (readings : List (χ → BitVec 16)) : Prop where
  map_eq : s.sampler.map = mapping
  lines : ∀ i (h : i < s.lines.length),
    AdcSampler.Averages mapping (s.lines.get ⟨i, h⟩) (readout readings i)
  tracked : s.firmware.measurement = .poll → s.sampler.newData = false →
    s.sampler.Tracked (s.window readings)
  finished : s.firmware.measurement = .poll → s.sampler.newData = true →
    AdcSampler.Averages mapping s.sampler.data (s.window readings)

theorem valued_step {mapping : Vector χ sensors.channels} {readings : List (χ → BitVec 16)}
    (hpaced : s.Paced readings) (h : Valued mapping s readings)
    (hkept : ∀ map data, e ≠ .overwrite map data)
    (hinputs : ∀ f ∈ readings ++ conversions [e], ∀ channel, (f channel).toNat < 2 ^ 12)
    (hmoves : Moves cfg s e t) : Valued mapping t (readings ++ conversions [e]) := by
  cases hmoves with
  | firmware hstep hpc =>
    rw [append_conversions_firmware]
    exact ⟨h.map_eq, h.lines, fun hp => h.tracked (hpc.mp hp), fun hp => h.finished (hpc.mp hp)⟩
  | startReadout hstep hstart hpoll =>
    rw [append_conversions_firmware]
    obtain ⟨hidle, hwindow⟩ := hpaced.away (Firmware.ne_poll_of_start hstart)
    obtain ⟨htracked, hmap⟩ := AdcSampler.startReadout_tracked hidle.samples_eq
    refine ⟨hmap.trans h.map_eq, h.lines, fun _ _ => ?_, fun _ hnew => ?_⟩
    · exact (List.length_eq_zero_iff.mp hwindow : s.window readings = []) ▸ htracked
    · rw [htracked.reading.newData_eq] at hnew
      cases hnew
  | line hstep hpoll hnew hsleep =>
    rw [append_conversions_firmware]
    refine ⟨h.map_eq, fun i hi => ?_, fun hp => absurd hp hsleep, fun hp => absurd hp hsleep⟩
    rcases Nat.lt_or_ge i s.lines.length with hold | hlast
    · have hget : (s.lines ++ [s.sampler.data]).get ⟨i, hi⟩ = s.lines.get ⟨i, hold⟩ :=
        List.getElem_append_left hold
      exact hget ▸ h.lines i hold
    · have hi' : i < (s.lines ++ [s.sampler.data]).length := hi
      rw [List.length_append, List.length_singleton] at hi'
      obtain rfl : i = s.lines.length := by omega
      have hget : (s.lines ++ [s.sampler.data]).get ⟨s.lines.length, hi⟩ = s.sampler.data :=
        List.getElem_concat_length rfl hi
      have hreadout : readout readings s.lines.length = s.window readings := by
        rcases hpaced.poll hpoll with hreading | ⟨-, -, hwindow⟩
        · rw [hreading.newData_eq] at hnew
          cases hnew
        · exact List.take_of_length_le (Nat.le_of_eq hwindow)
      change AdcSampler.Averages mapping ((s.lines ++ [s.sampler.data]).get ⟨_, hi⟩)
        (readout readings s.lines.length)
      rw [hget, hreadout]
      exact h.finished hpoll hnew
  | @conversion input sampler hstep =>
    obtain ⟨hpoll, hreading⟩ := hpaced.reading hstep
    have hlines := hpaced.lines_le
    have htracked := h.tracked hpoll hreading.newData_eq
    have hwindow := window_concat hpaced input
    have hwin : ∀ f ∈ s.window readings ++ [input], ∀ channel, (f channel).toNat < 2 ^ 12 := by
      intro f hf
      refine hinputs f ?_
      rcases List.mem_append.mp hf with hold | hnew
      · exact List.mem_append_left _ (List.mem_of_mem_drop hold)
      · exact List.mem_append_right _ hnew
    obtain ⟨hmap, hcases⟩ := AdcSampler.step_tracked not_endless_sensors (by decide) (by decide)
      hwin htracked hstep
    have hmapping : sampler.map = mapping := hmap.trans h.map_eq
    refine ⟨hmapping, fun i hi => ?_, fun _ hnew => ?_, fun _ hnew => ?_⟩
    · have hi' : i < s.lines.length := hi
      rw [readout_append (by omega)]
      exact h.lines i hi
    · rcases hcases with htracked' | ⟨-, hfinished, -⟩
      · exact hwindow ▸ htracked'
      · rw [show sampler.newData = false from hnew] at hfinished
        cases hfinished
    · rcases hcases with htracked' | ⟨-, -, -, haverages⟩
      · have hnew' : sampler.newData = true := hnew
        rw [htracked'.reading.newData_eq] at hnew'
        cases hnew'
      · exact hwindow ▸ hmapping ▸ haverages
  | overwrite map data => exact absurd rfl (hkept map data)

theorem valued_run {boot : Firmware bs n} (hstart : boot.measurement = .start)
    {mapping : Vector χ sensors.channels}
    {data : Vector (BitVec sensors.dataWidth) sensors.channels} {events : List (StationEvent χ)}
    (hrun : Machine.run (step cfg) (initial boot mapping data) events = .ok s)
    (hkept : ∀ map data, .overwrite map data ∉ events)
    (hinputs : ∀ f ∈ conversions events, ∀ channel, (f channel).toNat < 2 ^ 12) :
    Valued mapping s (conversions events) := by
  have h : s.Paced (conversions events) ∧ Valued mapping s (conversions events) := by
    refine Machine.run_history (motive := fun events s =>
      (∀ map data, .overwrite map data ∉ events) →
      (∀ f ∈ conversions events, ∀ channel, (f channel).toNat < 2 ^ 12) →
        s.Paced (conversions events) ∧ Valued mapping s (conversions events)) ?_
      (fun _ _ => ⟨paced_initial hstart mapping data, ?_⟩) hrun hkept hinputs
    · intro events s e t ih hstep hkept hinputs
      rw [conversions_concat] at hinputs ⊢
      obtain ⟨hpaced, hvalued⟩ := ih (fun map data he => hkept map data (List.mem_append_left _ he))
        fun f hf => hinputs f (List.mem_append_left _ hf)
      have hmoves := moves_of_step hstep
      exact ⟨paced_step hpaced hmoves, valued_step hpaced hvalued
        (fun map data he => hkept map data (by simp [he])) hinputs hmoves⟩
    · have haway := Firmware.ne_poll_of_start hstart
      exact ⟨rfl, fun i hi => absurd hi (Nat.not_lt_zero _), fun hpoll => absurd hpoll haway,
        fun hpoll => absurd hpoll haway⟩
  exact h.2

end Station

theorem Firmware.measurement_of_boot {sim : Sim bs n} {order : List FiberId} {boot : Firmware bs n}
    (hboot : Firmware.boot sim order = .ok boot) : boot.measurement = .start := by
  rw [Firmware.boot] at hboot
  split at hboot
  · cases hboot
  · cases hboot
    rfl

open Station

/-- **The measurements go in step with the conversions**, whatever happens to the arrays: each line
stands for the 301 conversions of its own readout, at most one more readout has been started, and
`startReadout` is not called while a readout is going on. -/
theorem measurement_paced (cfg : Config) (order : List FiberId) (boot : Firmware boards 22)
    (mapping : Vector χ sensors.channels)
    (data : Vector (BitVec sensors.dataWidth) sensors.channels) (events : List (StationEvent χ))
    (s : Station χ boards 22) (hboot : Firmware.boot Sim.initial order = .ok boot)
    (hrun : Machine.run (step cfg) (Station.initial boot mapping data) events = .ok s) :
    301 * s.lines.length ≤ (conversions events).length ∧
      (conversions events).length ≤ 301 * (s.lines.length + 1) ∧
      (s.firmware.measurement = .start → s.sampler.startReadout.2 = true) := by
  have hpaced := paced_run (Firmware.measurement_of_boot hboot) hrun
  have hlines := hpaced.lines_le
  have hwindow := s.length_window (conversions events)
  refine ⟨hlines, ?_, fun hstart => ?_⟩
  · by_cases hpoll : s.firmware.measurement = .poll
    · rcases hpaced.poll hpoll with hreading | ⟨-, -, hlength⟩
      · have hlt : (s.window (conversions events)).length < 301 := hreading.lt_length
        omega
      · omega
    · have haway := (hpaced.away hpoll).2
      omega
  · have hidle := (hpaced.away (Firmware.ne_poll_of_start hstart)).1
    rw [AdcSampler.startReadout, if_neg (by rw [hidle.samples_eq]; exact Nat.lt_irrefl 0)]

/-- Inputs that differ between the channels. -/
def someInput (channel : Fin 3) : BitVec 16 := BitVec.ofNat 16 (100 + channel.val)

/-- The first readout: it is started, all of its conversions end, and the line is logged. -/
def firstReadout : List (StationEvent (Fin 3)) :=
  .firmware (.cpu false) :: (List.replicate 301 (.conversion someInput) ++ [.firmware (.cpu false)])

theorem exists_firstReadout : ∃ (boot : Firmware boards 22) (s : Station (Fin 3) boards 22),
    Firmware.boot Sim.initial Firmware.startOrder = .ok boot ∧
      Machine.run (step slowConfig) (Station.initial boot #v[0, 1, 2] #v[0, 0, 0]) firstReadout =
        .ok s ∧ s.lines.length = 1 := by
  have h : ((Firmware.boot Sim.initial Firmware.startOrder).bind fun boot : Firmware boards 22 =>
      (Machine.run (step slowConfig) (Station.initial boot #v[0, 1, 2] #v[0, 0, 0])
        firstReadout).map fun s => s.lines.length) = .ok 1 := by decide +kernel
  obtain ⟨boot, hboot, h⟩ := Machine.exists_ok_of_bind h
  obtain ⟨s, hs, hlength⟩ := Machine.exists_ok_of_map h
  exact ⟨boot, s, hboot, hs, hlength⟩

/-- The first line takes 301 conversions. -/
theorem measurement_paced_first : ∃ s : Station (Fin 3) boards 22, s.lines.length = 1 ∧
    301 * 1 ≤ (conversions firstReadout).length ∧
    (conversions firstReadout).length ≤ 301 * (1 + 1) ∧
    (s.firmware.measurement = .start → s.sampler.startReadout.2 = true) := by
  obtain ⟨boot, s, hboot, hs, hlength⟩ := exists_firstReadout
  have hpaced := measurement_paced slowConfig _ boot _ _ firstReadout s hboot hs
  rw [hlength] at hpaced
  exact ⟨s, hlength, hpaced⟩

/-- **The lines of `measurement`.** Where the arrays are kept, each line has the averages of the
readings of its own readout, in which each channel of the map was read 100 times. -/
theorem measurement_lines (cfg : Config) (order : List FiberId) (boot : Firmware boards 22)
    (mapping : Vector χ sensors.channels)
    (data : Vector (BitVec sensors.dataWidth) sensors.channels) (events : List (StationEvent χ))
    (s : Station χ boards 22) (hboot : Firmware.boot Sim.initial order = .ok boot)
    (hrun : Machine.run (step cfg) (Station.initial boot mapping data) events = .ok s)
    (hkept : ∀ map data, .overwrite map data ∉ events)
    (hinputs : ∀ f ∈ conversions events, ∀ channel, (f channel).toNat < 2 ^ 12) :
    ∀ i (h : i < s.lines.length),
      AdcSampler.Averages mapping (s.lines.get ⟨i, h⟩) (readout (conversions events) i) :=
  (valued_run (Firmware.measurement_of_boot hboot) hrun hkept hinputs).lines

theorem mem_firstReadout {e : StationEvent (Fin 3)} (he : e ∈ firstReadout) :
    e = .firmware (.cpu false) ∨ e = .conversion someInput := by
  rcases List.mem_cons.mp he with rfl | he
  · exact .inl rfl
  · rcases List.mem_append.mp he with he | he
    · exact .inr (List.eq_of_mem_replicate he)
    · exact .inl (List.mem_singleton.mp he)

theorem measurement_lines_first : ∃ (s : Station (Fin 3) boards 22) (h : 0 < s.lines.length),
    AdcSampler.Averages #v[0, 1, 2] (s.lines.get ⟨0, h⟩)
      (readout (conversions firstReadout) 0) := by
  obtain ⟨boot, s, hboot, hs, hlength⟩ := exists_firstReadout
  have hpos : 0 < s.lines.length := by
    rw [hlength]
    decide
  refine ⟨s, hpos, measurement_lines slowConfig _ boot #v[0, 1, 2] #v[0, 0, 0] firstReadout s hboot
    hs (fun map data he => ?_) (fun f hf => ?_) 0 hpos⟩
  · rcases mem_firstReadout he with he | he <;> cases he
  · obtain ⟨e, he, hef⟩ := List.mem_filterMap.mp hf
    rcases mem_firstReadout he with rfl | rfl
    · cases hef
    · cases hef
      decide

end Modellbahn
