import Modellbahn.Sensors.AdcSampler

/-!
# Calls of `startReadout` and the interrupt

`startReadout` of `driver/adc/adc_sampler_impl.hpp` statement by statement: the interrupt handler
`sampleAdc` may run between any two of them. The steps of `AdcSampler.step` take a call as a whole;
they give the same as the statements where no conversion ends during a call (`Uninterrupted`). With
more than one sample for each channel such a conversion can only be the first one of a readout:
later calls return at once, and where no readout is going on no conversion ends. Where it does end
between the statements, the place in the array and the channel that is read may fall apart, and the
averages of the readout mix channels.

## Main definitions

* `Modellbahn.AdcUnit`, `Modellbahn.AdcUnit.step`: the sampler with a call of `startReadout`.
* `Modellbahn.AdcUnit.Uninterrupted`: no conversion ends during a call.

## Main results

* `Modellbahn.AdcUnit.exists_run_of_uninterrupted`: the calls are steps of the sampler.
* `Modellbahn.adc_average`: the values of a finished readout.
-/

namespace Modellbahn

open AdcSampler

/-- The place in a call of `startReadout`. -/
inductive StartReadoutPc
  /-- Not in a call. -/
  | outside
  /-- At `newData = false`. -/
  | newData
  /-- At `index = 0`. -/
  | index
  /-- At `AdcInterrupt::setChannel(map[0])`. -/
  | setChannel
  /-- At `AdcInterrupt::startConversion()`. -/
  | startConversion
  deriving DecidableEq, Repr

/-- The sampler, the channel that was set last, and the place in a call of `startReadout`. -/
structure AdcUnit (P : AdcParams) (χ : Type*) where
  sampler : AdcSampler P χ
  channel : Option χ
  pc : StartReadoutPc

/-- What happens to the sampler. -/
inductive AdcUnitEvent (χ : Type*)
  /-- `startReadout` is called, and checks `samples`. -/
  | call
  /-- The next statement of the call. -/
  | statement
  /-- The running conversion ends, with the inputs of the converter, and `sampleAdc` runs. -/
  | conversion (input : χ → BitVec 16)

namespace AdcUnit

variable {P : AdcParams} {χ : Type*}

/-- `initialize`, before any conversion. -/
def initial (mapping : Vector χ P.channels) (data : Vector (BitVec P.dataWidth) P.channels) :
    AdcUnit P χ where
  sampler := .initial mapping data
  channel := none
  pc := .outside

/-- The next statement of a call. -/
def statement (s : AdcUnit P χ) : Except Unit (AdcUnit P χ) :=
  match s.pc with
  | .outside => .error ()
  | .newData => .ok { s with sampler := { s.sampler with newData := false }, pc := .index }
  | .index =>
    .ok { s with sampler := { s.sampler with index := ⟨0, P.channels_pos⟩ }, pc := .setChannel }
  | .setChannel =>
    .ok { s with
      channel := some (s.sampler.map.get ⟨0, P.channels_pos⟩)
      pc := .startConversion }
  | .startConversion =>
    .ok { s with sampler := { s.sampler with selected := s.channel }, pc := .outside }

/-- One event. The handler sets the channel of the conversion that it starts. -/
def step (s : AdcUnit P χ) : AdcUnitEvent χ → Except Unit (AdcUnit P χ)
  | .call =>
    match s.pc with
    | .outside => .ok (if s.sampler.samples.toNat > 0 then s else { s with pc := .newData })
    | _ => .error ()
  | .statement => s.statement
  | .conversion input =>
    (s.sampler.step (.conversion input)).map fun sampler =>
      { s with sampler := sampler, channel := sampler.selected.or s.channel }

/-- The inputs at the conversions. -/
def inputs (events : List (AdcUnitEvent χ)) : List (χ → BitVec 16) :=
  events.filterMap fun
    | .conversion input => some input
    | _ => none

/-- **No conversion ends during a call** of `startReadout`. -/
def Uninterrupted (s : AdcUnit P χ) : AdcUnitEvent χ → Prop
  | .conversion _ => s.pc = .outside
  | _ => True

/-- The sampler `a` before the call, or after the conversions since the last one. -/
def After (a : AdcSampler P χ) (s : AdcUnit P χ) : Prop :=
  match s.pc with
  | .outside => s.sampler = a
  | .newData => s.sampler = a ∧ a.samples.toNat = 0
  | .index => s.sampler = { a with newData := false } ∧ a.samples.toNat = 0
  | .setChannel => s.sampler = { a with newData := false, index := ⟨0, P.channels_pos⟩ } ∧
      a.samples.toNat = 0
  | .startConversion => s.sampler = { a with newData := false, index := ⟨0, P.channels_pos⟩ } ∧
      a.samples.toNat = 0 ∧ s.channel = some (a.map.get ⟨0, P.channels_pos⟩)

instance (s : AdcUnit P χ) : ∀ e, Decidable (Uninterrupted s e)
  | .conversion _ => inferInstanceAs (Decidable (s.pc = .outside))
  | .call => isTrue trivial
  | .statement => isTrue trivial

variable {a : AdcSampler P χ} {s t : AdcUnit P χ}

theorem after_call (h : After a s) (hstep : s.step .call = .ok t) :
    ∃ es b, AdcSampler.inputs es = [] ∧ Machine.run AdcSampler.step a es = .ok b ∧ After b t := by
  rw [step] at hstep
  cases hpc : s.pc with
  | outside =>
    rw [hpc] at hstep
    rw [After, hpc] at h
    by_cases hsamples : s.sampler.samples.toNat > 0
    · -- The call returns at once.
      rw [if_pos hsamples] at hstep
      cases hstep
      refine ⟨[], a, rfl, rfl, ?_⟩
      rw [After, hpc]
      exact h
    · rw [if_neg hsamples] at hstep
      cases hstep
      exact ⟨[], a, rfl, rfl, h, h ▸ Nat.eq_zero_of_not_pos hsamples⟩
  | _ =>
    rw [hpc] at hstep
    cases hstep

theorem after_statement (h : After a s) (hstep : s.step .statement = .ok t) :
    ∃ es b, AdcSampler.inputs es = [] ∧ Machine.run AdcSampler.step a es = .ok b ∧ After b t := by
  rw [step, statement] at hstep
  cases hpc : s.pc with
  | outside =>
    rw [hpc] at hstep
    cases hstep
  | newData =>
    rw [hpc] at hstep
    rw [After, hpc] at h
    cases hstep
    exact ⟨[], a, rfl, rfl, by rw [h.1], h.2⟩
  | index =>
    rw [hpc] at hstep
    rw [After, hpc] at h
    cases hstep
    exact ⟨[], a, rfl, rfl, by rw [h.1], h.2⟩
  | setChannel =>
    rw [hpc] at hstep
    rw [After, hpc] at h
    cases hstep
    exact ⟨[], a, rfl, rfl, h.1, h.2, by rw [h.1]⟩
  | startConversion =>
    rw [hpc] at hstep
    rw [After, hpc] at h
    cases hstep
    -- This completes the call.
    refine ⟨[.start], a.startReadout.1, rfl, rfl, ?_⟩
    rw [After, startReadout, if_neg (by omega), h.1, h.2.2]
    rfl

theorem after_conversion {input : χ → BitVec 16} (h : After a s)
    (huninterrupted : Uninterrupted s (.conversion input))
    (hstep : s.step (.conversion input) = .ok t) :
    ∃ es b, AdcSampler.inputs es = [input] ∧ Machine.run AdcSampler.step a es = .ok b ∧
      After b t := by
  have hpc : s.pc = .outside := huninterrupted
  rw [After, hpc] at h
  obtain ⟨sampler, hsampler, rfl⟩ := Machine.exists_ok_of_map hstep
  refine ⟨[.conversion input], sampler, rfl, ?_, ?_⟩
  · rw [Machine.run_singleton, ← h, hsampler]
  · rw [After, hpc]

/-- **Uninterrupted calls are steps** of the sampler, with the same conversions. -/
theorem exists_run_of_uninterrupted {events : List (AdcUnitEvent χ)}
    (huninterrupted : Machine.Along step Uninterrupted s events)
    (hrun : Machine.run step s events = .ok t) (h : After a s) :
    ∃ es b, AdcSampler.inputs es = inputs events ∧ Machine.run AdcSampler.step a es = .ok b ∧
      After b t := by
  refine Machine.run_history_along (motive := fun events t => ∃ es b,
    AdcSampler.inputs es = inputs events ∧ Machine.run AdcSampler.step a es = .ok b ∧ After b t)
    ?_ ⟨[], a, rfl, rfl, h⟩ huninterrupted hrun
  intro events u e v ⟨es, b, hinputs, hes, hafter⟩ huninterrupted hstep
  obtain ⟨es', c, hinputs', hes', hafter'⟩ : ∃ es' c, AdcSampler.inputs es' = inputs [e] ∧
      Machine.run AdcSampler.step b es' = .ok c ∧ After c v := by
    cases e with
    | call => exact after_call hafter hstep
    | statement => exact after_statement hafter hstep
    | conversion input => exact after_conversion hafter huninterrupted hstep
  refine ⟨es ++ es', c, ?_, Machine.run_append_eq_ok.mpr ⟨b, hes, hes'⟩, hafter'⟩
  rw [AdcSampler.inputs, List.filterMap_append]
  exact (congrArg₂ (· ++ ·) hinputs hinputs').trans List.filterMap_append.symm

/-- Data that are new are those before the call. -/
theorem After.eq_of_newData (h : After a s) (hnew : s.sampler.newData = true) : s.sampler = a := by
  rw [After] at h
  split at h
  · exact h
  · exact h.1
  all_goals
    rw [h.1] at hnew
    cases hnew

end AdcUnit

/-- **The result of the sampler.** In every run in which no conversion ends between the statements
of a call of `startReadout`, the data that a finished readout has left are the averages of the last
conversions: each channel was read `oversamples` times, every `channels` conversions. No sum exceeds
the type of the data. -/
theorem adc_average {P : AdcParams} {χ : Type*}
    (hsum : 2 ^ P.resolution * P.oversamples < 2 ^ 32)
    (htotal : P.oversamples * P.channels < 2 ^ 32)
    {mapping : Vector χ P.channels} {data : Vector (BitVec P.dataWidth) P.channels}
    {events : List (AdcUnitEvent χ)} {s : AdcUnit P χ}
    (hrun : Machine.run AdcUnit.step (.initial mapping data) events = .ok s)
    (huninterrupted : Machine.Along AdcUnit.step AdcUnit.Uninterrupted (.initial mapping data)
      events)
    (hinputs : ∀ input ∈ AdcUnit.inputs events, ∀ channel,
      (input channel).toNat < 2 ^ P.resolution)
    (hnew : s.sampler.newData = true) :
    ∃ earlier win, AdcUnit.inputs events = earlier ++ win ∧ win.length = P.readoutLength ∧
      Averages mapping s.sampler.data win := by
  obtain ⟨es, a, hes, ha, hafter⟩ :=
    AdcUnit.exists_run_of_uninterrupted (a := .initial mapping data) huninterrupted hrun rfl
  rw [← hes] at hinputs ⊢
  have hsame := hafter.eq_of_newData hnew
  rw [hsame] at hnew ⊢
  exact averages_of_run hsum htotal ha hinputs hnew

/-- A readout of the board, with 301 conversions. -/
theorem adc_average_sensors :
    let input : Fin 3 → BitVec 16 := fun channel => BitVec.ofNat 16 (100 + channel.val)
    let events : List (AdcUnitEvent (Fin 3)) :=
      [.call, .statement, .statement, .statement, .statement] ++
        List.replicate 301 (.conversion input)
    ∃ s : AdcUnit sensors (Fin 3),
      Machine.run AdcUnit.step (.initial #v[0, 1, 2] #v[0, 0, 0]) events = .ok s ∧
        ∃ earlier win, AdcUnit.inputs events = earlier ++ win ∧ win.length = 301 ∧
          Averages #v[0, 1, 2] s.sampler.data win := by
  intro input events
  have hrun : (Machine.run AdcUnit.step (.initial (P := sensors) #v[(0 : Fin 3), 1, 2] #v[0, 0, 0])
      events).map (fun s => s.sampler.newData) = .ok true := by
    decide +kernel
  obtain ⟨s, hs, hnew⟩ := Machine.exists_ok_of_map hrun
  have huninterrupted : Machine.Along AdcUnit.step AdcUnit.Uninterrupted
      (.initial (P := sensors) #v[(0 : Fin 3), 1, 2] #v[0, 0, 0]) events := by
    decide +kernel
  have hinputs : ∀ f ∈ AdcUnit.inputs events, ∀ channel,
      (f channel).toNat < 2 ^ sensors.resolution := by
    intro f hf
    obtain ⟨e, he, hef⟩ := List.mem_filterMap.mp hf
    rcases List.mem_append.mp he with he | he
    · simp only [List.mem_cons, List.not_mem_nil, or_false] at he
      rcases he with rfl | rfl | rfl | rfl | rfl <;> cases hef
    · obtain rfl := List.eq_of_mem_replicate he
      cases hef
      decide
  exact ⟨s, hs, adc_average (by decide) (by decide) hs huninterrupted hinputs hnew⟩

/-- Two channels with the inputs 10 and 20 and two samples of each. The first conversion ends
between two statements of a second call, and the second value is no average of readings of its channel. -/
example :
    let P : AdcParams :=
      { channels := 2
        oversamples := 2
        resolution := 8
        channels_pos := by decide
        channels_lt := by decide
        oversamples_pos := by decide
        oversamples_lt := by decide }
    let conversion : AdcUnitEvent (Fin 2) := .conversion fun c => if c = 0 then 10 else 20
    (Machine.run AdcUnit.step (.initial (P := P) #v[0, 1] #v[0, 0])
      ([.call, .statement, .statement, .statement, .statement, .call, .statement, .statement,
        conversion, .statement, .statement] ++ List.replicate 4 conversion)).map
      (fun s => s.sampler.data) = .ok #v[10, 15] := by
  decide +kernel

end Modellbahn
