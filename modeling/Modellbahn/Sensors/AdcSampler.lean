import Mathlib.Algebra.BigOperators.Intervals
import Mathlib.Algebra.Order.BigOperators.Group.Finset
import Mathlib.Data.List.GetD
import Modellbahn.Foundation.Machine
import Modellbahn.Foundation.Ring

/-!
# The sampler of the analog inputs

`modm::AdcSampler` of `driver/adc/adc_sampler.hpp` and `adc_sampler_impl.hpp`: it reads several
channels of a converter round after round and averages the readings of each of them. The board has
one for the current, the voltage and the temperature (`inc/board.hpp`).

A readout is started with `startReadout`, and continued by the interrupt handler `sampleAdc` at the
end of each conversion. The pointers `map` and `data` are modelled by the arrays they point to. A
call of `startReadout` is one step here: no conversion ends between its statements. What becomes of
this where one may, is the subject of `Modellbahn.Sensors.StartReadout`.

## Main definitions

* `Modellbahn.AdcParams`: the parameters of the template, with its static assertions.
* `Modellbahn.AdcSampler`, with `startReadout` and `sampleAdc`: the sampler.
* `Modellbahn.AdcSampler.step`: a call of `startReadout`, or the end of a conversion.
* `Modellbahn.AdcSampler.Reading`, `Modellbahn.AdcSampler.Tracked`: a readout going on.

## Main results

* `Modellbahn.AdcSampler.step_conversion`, `Modellbahn.AdcSampler.step_tracked`: one conversion.
* `Modellbahn.adc_readout_ends`: the number of conversions of a readout, and the parameters for
  which no readout ends.
* `Modellbahn.AdcSampler.averages_of_run`: the values of a finished readout.
-/

namespace Modellbahn

/-- `modm::pow` -/
def pow (base : BitVec 32) : ℕ → BitVec 32
  | 0 => 1
  | exponent + 1 => base * pow base exponent

theorem toNat_pow_two (exponent : ℕ) : (pow 2 exponent).toNat = 2 ^ exponent % 2 ^ 32 := by
  induction exponent with
  | zero => rfl
  | succ exponent ih =>
    have hsucc : 2 ^ (exponent + 1) = 2 * 2 ^ exponent := Nat.pow_succ'
    rw [pow, BitVec.toNat_mul, ih, Nat.mul_mod_mod, hsucc]
    rfl

/-- The width of the smallest type for numbers up to a bound, as `SampleType` and `DataType` choose
it. -/
def smallestWidth (bound : BitVec 32) : ℕ :=
  if bound < pow 2 16 then if bound < 256 then 8 else 16 else 32

theorem lt_smallestWidth (bound : BitVec 32) : bound.toNat < 2 ^ smallestWidth bound := by
  have hbound := bound.isLt
  have hpow : (pow 2 16).toNat = 65536 := rfl
  rw [smallestWidth]
  split_ifs with h16 h8
  · exact BitVec.lt_def.mp h8
  · rw [BitVec.lt_def, hpow] at h16
    exact h16
  · exact hbound

/-- The parameters of the template `AdcSampler`, with what it asserts of them. -/
structure AdcParams where
  channels : ℕ
  oversamples : ℕ
  resolution : ℕ
  channels_pos : channels > 0
  channels_lt : channels < 2 ^ 8
  oversamples_pos : oversamples > 0
  oversamples_lt : oversamples < 2 ^ 32

namespace AdcParams

variable (P : AdcParams)

def totalSamples : BitVec 32 := BitVec.ofNat 32 P.oversamples * BitVec.ofNat 32 P.channels

/-- The width of `SampleType`. -/
def sampleWidth : ℕ := smallestWidth P.totalSamples

/-- The width of `DataType`. -/
def dataWidth : ℕ := smallestWidth (pow 2 P.resolution * BitVec.ofNat 32 P.oversamples)

end AdcParams

/-- `AdcSampler`, with the channel whose conversion is running. -/
@[ext]
structure AdcSampler (P : AdcParams) (χ : Type*) where
  map : Vector χ P.channels
  data : Vector (BitVec P.dataWidth) P.channels
  samples : BitVec P.sampleWidth
  index : Fin P.channels
  newData : Bool
  selected : Option χ

namespace AdcSampler

variable {P : AdcParams} {χ : Type*}

/-- `initialize`, before any conversion. -/
def initial (mapping : Vector χ P.channels) (data : Vector (BitVec P.dataWidth) P.channels) :
    AdcSampler P χ where
  map := mapping
  data := data
  samples := 0
  index := ⟨0, P.channels_pos⟩
  newData := false
  selected := none

/-- `AdcInterrupt::setChannel(map[index])` and `AdcInterrupt::startConversion()` -/
def convert (s : AdcSampler P χ) : AdcSampler P χ := { s with selected := some (s.map.get s.index) }

/-- `startReadout`, with its result. -/
def startReadout (s : AdcSampler P χ) : AdcSampler P χ × Bool :=
  if s.samples.toNat > 0 then (s, false)
  else (({ s with newData := false, index := ⟨0, P.channels_pos⟩ } : AdcSampler P χ).convert, true)

/-- `sampleAdc`, with the result of `AdcInterrupt::getValue`. -/
def sampleAdc (s : AdcSampler P χ) (value : BitVec 16) : AdcSampler P χ :=
  if P.oversamples > 1 then
    let s := if s.samples.toNat ≤ P.channels then { s with data := s.data.set s.index 0 } else s
    let s := { s with data := s.data.set s.index (s.data.get s.index + value.setWidth _) }
    let s := { s with samples := s.samples + 1 }
    if s.samples.toNat ≤ P.totalSamples.toNat then
      if h : s.index.val + 1 ≥ P.channels then convert { s with index := ⟨0, P.channels_pos⟩ }
      else convert { s with index := ⟨s.index.val + 1, Nat.lt_of_not_ge h⟩ }
    else
      { s with
        data := s.data.map fun d => BitVec.ofNat _ (d.toNat / P.oversamples)
        samples := 0
        index := ⟨0, P.channels_pos⟩
        newData := true }
  else
    let s := { s with data := s.data.set s.index (value.setWidth _) }
    if h : s.index.val + 1 < P.channels then convert { s with index := ⟨s.index.val + 1, h⟩ }
    else { s with index := ⟨0, P.channels_pos⟩, newData := true }

/-- A call of `startReadout`, in which no conversion ends, or the end of the running conversion,
with the inputs of the converter. -/
inductive Event (χ : Type*)
  | start
  | conversion (input : χ → BitVec 16)

/-- One event. Where no conversion is running, none ends. -/
def step (s : AdcSampler P χ) : Event χ → Except Unit (AdcSampler P χ)
  | .start => .ok s.startReadout.1
  | .conversion input =>
    match s.selected with
    | none => .error ()
    | some channel => .ok (sampleAdc { s with selected := none } (input channel))

/-- The inputs at the conversions. -/
def inputs (events : List (Event χ)) : List (χ → BitVec 16) :=
  events.filterMap fun
    | .start => none
    | .conversion input => some input

/-! ### A readout -/

/-- The values after a conversion, before the average. The first reading of a channel that counts
replaces what was there. -/
def accumulate (s : AdcSampler P χ) (value : BitVec 16) : Vector (BitVec P.dataWidth) P.channels :=
  s.data.set s.index ((if P.oversamples > 1 ∧ P.channels < s.samples.toNat then
    s.data.get s.index else 0) + value.setWidth _)

theorem get_accumulate_index (s : AdcSampler P χ) (value : BitVec 16) :
    (s.accumulate value).get s.index = (if P.oversamples > 1 ∧ P.channels < s.samples.toNat then
      s.data.get s.index else 0) + value.setWidth _ :=
  Vector.getElem_set_self s.index.isLt

theorem get_accumulate_of_ne (s : AdcSampler P χ) (value : BitVec 16) {c : Fin P.channels}
    (hc : c ≠ s.index) : (s.accumulate value).get c = s.data.get c :=
  Vector.getElem_set_ne s.index.isLt c.isLt fun he => hc (Fin.ext he.symm)

end AdcSampler

namespace AdcParams

variable (P : AdcParams)

/-- The number of conversions of a readout. -/
def readoutLength : ℕ := if P.oversamples > 1 then P.totalSamples.toNat + 1 else P.channels

/-- Whether `samples` wraps around before it exceeds `totalSamples`. -/
def Endless : Prop :=
  P.oversamples > 1 ∧ P.totalSamples.toNat ∈ [255, 65535, 4294967295]

instance : Decidable P.Endless := inferInstanceAs (Decidable (_ ∧ _))

theorem endless_iff :
    P.Endless ↔ P.oversamples > 1 ∧ P.totalSamples.toNat + 1 = 2 ^ P.sampleWidth := by
  have hpow : (pow 2 16).toNat = 65536 := rfl
  have htotal := P.totalSamples.isLt
  refine and_congr_right fun _ => ?_
  rw [sampleWidth, smallestWidth]
  split_ifs with h16 h8 <;> simp only [BitVec.lt_def, hpow] at h16 <;>
    simp only [List.mem_cons, List.not_mem_nil, or_false]
  · have h8' : P.totalSamples.toNat < 256 := BitVec.lt_def.mp h8
    omega
  · have h8' : ¬ P.totalSamples.toNat < 256 := fun h => h8 (BitVec.lt_def.mpr h)
    omega
  · omega

end AdcParams

namespace AdcSampler

variable {P : AdcParams} {χ : Type*}

/-- A readout after `k` of its conversions, with the next one running. -/
structure Reading (s : AdcSampler P χ) (k : ℕ) : Prop where
  index_eq : s.index.val = k % P.channels
  running : ∃ channel, s.selected = some channel
  newData_eq : s.newData = false
  samples_eq : s.samples.toNat = if P.oversamples > 1 then k else 0
  lt_length : k < P.readoutLength

/-- No conversion is running. -/
structure Idle (s : AdcSampler P χ) : Prop where
  selected_eq : s.selected = none
  samples_eq : s.samples.toNat = 0

/-- **The start of a readout.** -/
theorem startReadout_reading (s : AdcSampler P χ) (hs : s.samples.toNat = 0) :
    s.startReadout.1.Reading 0 ∧ s.startReadout.1.map = s.map ∧
      s.startReadout.1.selected = some (s.map.get s.startReadout.1.index) := by
  have hstart : s.startReadout.1 =
      ({ s with newData := false, index := ⟨0, P.channels_pos⟩ } : AdcSampler P χ).convert := by
    rw [startReadout, if_neg (by omega)]
  have hlength : 0 < P.readoutLength := by
    rw [AdcParams.readoutLength]
    split_ifs
    · exact Nat.succ_pos _
    · exact P.channels_pos
  rw [hstart]
  exact ⟨⟨(Nat.zero_mod _).symm, ⟨_, rfl⟩, rfl, by simpa [convert] using hs, hlength⟩, rfl, rfl⟩

/-- The next conversion of the readout. -/
def proceed (s : AdcSampler P χ) (value : BitVec 16) : AdcSampler P χ :=
  ({ s with
    data := s.accumulate value
    samples := if P.oversamples > 1 then s.samples + 1 else s.samples
    index := Ring.next s.index } : AdcSampler P χ).convert

/-- The end of the readout. -/
def finish (s : AdcSampler P χ) (value : BitVec 16) : AdcSampler P χ :=
  { s with
    data := (s.accumulate value).map fun d => BitVec.ofNat _ (d.toNat / P.oversamples)
    samples := if P.oversamples > 1 then 0 else s.samples
    index := ⟨0, P.channels_pos⟩
    newData := true }

theorem accumulate_of_le {s : AdcSampler P χ} (hs : s.samples.toNat ≤ P.channels)
    (value : BitVec 16) :
    (s.data.set s.index 0).set s.index ((s.data.set s.index 0).get s.index + value.setWidth _) =
      s.accumulate value := by
  have hget : (s.data.set s.index 0).get s.index = 0 := Vector.getElem_set_self s.index.isLt
  rw [hget, Vector.set_set, accumulate, if_neg (by omega)]

theorem accumulate_of_lt (hP : P.oversamples > 1) {s : AdcSampler P χ}
    (hs : ¬ s.samples.toNat ≤ P.channels) (value : BitVec 16) :
    s.data.set s.index (s.data.get s.index + value.setWidth _) = s.accumulate value := by
  rw [accumulate, if_pos ⟨hP, by omega⟩]

theorem convert_next (s : AdcSampler P χ) :
    (if h : s.index.val + 1 ≥ P.channels then convert { s with index := ⟨0, P.channels_pos⟩ }
      else convert { s with index := ⟨s.index.val + 1, Nat.lt_of_not_ge h⟩ }) =
      convert { s with index := Ring.next s.index } := by
  rw [Ring.next]
  by_cases h : s.index.val + 1 < P.channels
  · rw [dif_neg (by omega), dif_pos h]
  · rw [dif_pos (by omega), dif_neg h]

/-- **The interrupt handler** with more than one sample for each channel. -/
theorem sampleAdc_of_oversamples (hP : P.oversamples > 1) (s : AdcSampler P χ) (value : BitVec 16) :
    s.sampleAdc value = if (s.samples + 1).toNat ≤ P.totalSamples.toNat then s.proceed value
      else s.finish value := by
  rw [sampleAdc, if_pos hP, proceed, finish, if_pos hP, if_pos hP]
  by_cases hs : s.samples.toNat ≤ P.channels
  · simp only [if_pos hs, accumulate_of_le hs]
    exact if_congr Iff.rfl (convert_next { s with
      data := s.accumulate value, samples := s.samples + 1 }) rfl
  · simp only [if_neg hs, accumulate_of_lt hP hs]
    exact if_congr Iff.rfl (convert_next { s with
      data := s.accumulate value, samples := s.samples + 1 }) rfl

theorem sampleAdc_of_single (hP : ¬ P.oversamples > 1) (s : AdcSampler P χ) (value : BitVec 16) :
    s.sampleAdc value = if s.index.val + 1 < P.channels then s.proceed value
      else s.finish value := by
  have hone : P.oversamples = 1 := by
    have hpos := P.oversamples_pos
    omega
  have hdata : s.data.set s.index (value.setWidth _) = s.accumulate value := by
    rw [accumulate, if_neg fun h => hP h.1]
    exact congrArg (Vector.set s.data s.index · s.index.isLt) (BitVec.zero_add _).symm
  have haverage : ((s.accumulate value).map fun d => BitVec.ofNat _ (d.toNat / P.oversamples)) =
      s.accumulate value := by
    simp [hone]
  rw [sampleAdc, if_neg hP, proceed, finish, if_neg hP, if_neg hP, haverage]
  simp only [hdata]
  split_ifs with h
  · rw [Ring.next, dif_pos h]
  · rfl

/-- `++samples` does not wrap around. -/
theorem samples_succ (hP : ¬ P.Endless) (hover : P.oversamples > 1) {s : AdcSampler P χ}
    (hs : s.samples.toNat ≤ P.totalSamples.toNat) :
    (s.samples + 1).toNat = s.samples.toNat + 1 := by
  have htotal : P.totalSamples.toNat < 2 ^ P.sampleWidth := lt_smallestWidth P.totalSamples
  have hne : P.totalSamples.toNat + 1 ≠ 2 ^ P.sampleWidth := fun he =>
    hP (P.endless_iff.mpr ⟨hover, he⟩)
  have hfits : s.samples.toNat + 1 < 2 ^ P.sampleWidth := by omega
  have hwidth : 1 < 2 ^ P.sampleWidth := by omega
  have hone : (1 : BitVec P.sampleWidth).toNat = 1 := Nat.mod_eq_of_lt hwidth
  rw [BitVec.toNat_add, hone, Nat.mod_eq_of_lt hfits]

/-- **A conversion.** Before the last one of the readout, `sampleAdc` starts the next one. -/
theorem step_conversion {s : AdcSampler P χ} {k : ℕ} (h : s.Reading k) (hP : ¬ P.Endless)
    {channel : χ} (hselected : s.selected = some channel) (input : χ → BitVec 16) :
    s.step (.conversion input) = .ok (if k + 1 < P.readoutLength then s.proceed (input channel)
      else { s.finish (input channel) with selected := none }) := by
  have hk := h.lt_length
  have hsamples := h.samples_eq
  rw [AdcParams.readoutLength] at hk ⊢
  rw [step, hselected]
  refine congrArg Except.ok ?_
  by_cases hover : P.oversamples > 1
  · rw [if_pos hover] at hk hsamples ⊢
    have hsucc : (s.samples + 1).toNat = k + 1 := by
      rw [samples_succ hP hover (by omega), hsamples]
    rw [sampleAdc_of_oversamples hover]
    exact if_congr (by rw [hsucc]; omega) rfl rfl
  · rw [if_neg hover] at hk ⊢
    rw [sampleAdc_of_single hover]
    exact if_congr (by rw [h.index_eq, Nat.mod_eq_of_lt hk]) rfl rfl

theorem proceed_reading {s : AdcSampler P χ} {k : ℕ} (h : s.Reading k) (hP : ¬ P.Endless)
    (value : BitVec 16) (hk : k + 1 < P.readoutLength) : (s.proceed value).Reading (k + 1) := by
  have hlt := s.index.isLt
  refine ⟨?_, ⟨_, rfl⟩, h.newData_eq, ?_, hk⟩
  · change (Ring.next s.index).val = _
    rw [Ring.val_next, h.index_eq, ← Nat.mod_add_mod]
    rw [h.index_eq] at hlt
    split_ifs with hnext
    · exact (Nat.mod_eq_of_lt hnext).symm
    · have hlast : k % P.channels + 1 = P.channels := by omega
      rw [hlast, Nat.mod_self]
  · change (if P.oversamples > 1 then s.samples + 1 else s.samples).toNat = _
    have hsamples := h.samples_eq
    split_ifs at hsamples ⊢ with hover
    · rw [AdcParams.readoutLength, if_pos hover] at hk
      rw [samples_succ hP hover (by omega), hsamples]
    · exact hsamples

theorem finish_idle {s : AdcSampler P χ} {k : ℕ} (h : s.Reading k) (value : BitVec 16) :
    Idle { s.finish value with selected := none } := by
  refine ⟨rfl, ?_⟩
  have hsamples := h.samples_eq
  change (if P.oversamples > 1 then 0 else s.samples).toNat = 0
  split_ifs at hsamples ⊢
  · rfl
  · exact hsamples

theorem toNat_totalSamples (htotal : P.oversamples * P.channels < 2 ^ 32) :
    P.totalSamples.toNat = P.oversamples * P.channels := by
  have hchannels : P.channels < 2 ^ 32 := Nat.lt_trans P.channels_lt (by decide)
  rw [AdcParams.totalSamples, BitVec.toNat_mul, BitVec.toNat_ofNat, BitVec.toNat_ofNat,
    Nat.mod_eq_of_lt P.oversamples_lt, Nat.mod_eq_of_lt hchannels, Nat.mod_eq_of_lt htotal]

/-- The first conversion of a readout that counts for a channel. With more than one sample, the very
first reading of channel 0 is dropped, as `samples <= Channels` holds for the second one too. -/
def first (c : Fin P.channels) : ℕ :=
  if P.oversamples > 1 ∧ c.val = 0 then P.channels else c.val

theorem first_mod (c : Fin P.channels) : first c % P.channels = c.val := by
  rw [first]
  split_ifs with h
  · rw [Nat.mod_self, h.2]
  · exact Nat.mod_eq_of_lt c.isLt

theorem first_le (c : Fin P.channels) : first c ≤ P.channels := by
  have hc := c.isLt
  rw [first]
  split_ifs <;> omega

theorem first_pos (hover : P.oversamples > 1) (c : Fin P.channels) : 0 < first c := by
  have hpos := P.channels_pos
  rw [first]
  split_ifs with h
  · exact hpos
  · exact Nat.pos_of_ne_zero fun hc => h ⟨hover, hc⟩

/-- What conversion `j` of a readout with these inputs reads at a channel. -/
def reading (win : List (χ → BitVec 16)) (channel : χ) (j : ℕ) : ℕ :=
  ((win.getD j fun _ => 0) channel).toNat

theorem reading_append {win : List (χ → BitVec 16)} (input : χ → BitVec 16) (channel : χ) {j : ℕ}
    (hj : j < win.length) : reading (win ++ [input]) channel j = reading win channel j := by
  rw [reading, reading, List.getD_append _ _ _ _ hj]

theorem reading_concat (win : List (χ → BitVec 16)) (input : χ → BitVec 16) (channel : χ) :
    reading (win ++ [input]) channel win.length = (input channel).toNat := by
  rw [reading, List.getD_append_right _ _ _ _ (Nat.le_refl _), Nat.sub_self]
  rfl

/-- **The sums** in the array after the conversions of a readout with the inputs `win`: channel `c`
was read in the conversions `first c + i * channels`. -/
def Accumulated (map : Vector χ P.channels) (data : Vector (BitVec P.dataWidth) P.channels)
    (win : List (χ → BitVec 16)) : Prop :=
  ∀ c n, first c + n * P.channels < win.length → win.length ≤ first c + (n + 1) * P.channels →
    (data.get c).toNat =
      ∑ i ∈ Finset.range (n + 1), reading win (map.get c) (first c + i * P.channels)

theorem accumulated_nil (map : Vector χ P.channels)
    (data : Vector (BitVec P.dataWidth) P.channels) : Accumulated map data [] :=
  fun _ _ hlt _ => absurd hlt (Nat.not_lt_zero _)

theorem reading_lt {bound : ℕ} {win : List (χ → BitVec 16)} (hbound : 0 < bound)
    (hwin : ∀ input ∈ win, ∀ channel, (input channel).toNat < bound) (channel : χ) (j : ℕ) :
    reading win channel j < bound := by
  rw [reading]
  rcases Nat.lt_or_ge j win.length with hj | hj
  · rw [List.getD_eq_getElem _ _ hj]
    exact hwin _ (List.getElem_mem hj) channel
  · rw [List.getD_eq_default _ _ hj]
    exact hbound

/-- Sums of readings fit into `DataType`. -/
theorem sum_lt (hsum : 2 ^ P.resolution * P.oversamples < 2 ^ 32) {f : ℕ → ℕ}
    (hf : ∀ i, f i < 2 ^ P.resolution) {n : ℕ} (hn : n ≤ P.oversamples) :
    ∑ i ∈ Finset.range n, f i < 2 ^ P.dataWidth := by
  have hpos := P.oversamples_pos
  have hresolution : 2 ^ P.resolution < 2 ^ 32 :=
    Nat.lt_of_le_of_lt (Nat.le_mul_of_pos_right _ hpos) hsum
  have hbound : (pow 2 P.resolution * BitVec.ofNat 32 P.oversamples).toNat =
      2 ^ P.resolution * P.oversamples := by
    rw [BitVec.toNat_mul, toNat_pow_two, BitVec.toNat_ofNat, Nat.mod_eq_of_lt hresolution,
      Nat.mod_eq_of_lt P.oversamples_lt, Nat.mod_eq_of_lt hsum]
  have hwidth := lt_smallestWidth (pow 2 P.resolution * BitVec.ofNat 32 P.oversamples)
  rw [hbound] at hwidth
  calc ∑ i ∈ Finset.range n, f i
      ≤ ∑ _i ∈ Finset.range n, (2 ^ P.resolution - 1) :=
        Finset.sum_le_sum fun i _ => Nat.le_sub_one_of_lt (hf i)
    _ = n * (2 ^ P.resolution - 1) := by 
      rw [Finset.sum_const_nat fun _ _ => rfl, Finset.card_range]
    _ ≤ P.oversamples * (2 ^ P.resolution - 1) := Nat.mul_le_mul_right _ hn
    _ < P.oversamples * 2 ^ P.resolution :=
        Nat.mul_lt_mul_of_pos_left (Nat.sub_one_lt (Nat.two_pow_pos _).ne') hpos
    _ = 2 ^ P.resolution * P.oversamples := Nat.mul_comm _ _
    _ < 2 ^ P.dataWidth := hwidth

/-- A readout reads no channel more often than asked for. -/
theorem succ_le_oversamples (htotal : P.oversamples * P.channels < 2 ^ 32) {c : Fin P.channels}
    {k n : ℕ} (hk : k < P.readoutLength) (hn : first c + n * P.channels ≤ k) :
    n + 1 ≤ P.oversamples := by
  rw [AdcParams.readoutLength] at hk
  split_ifs at hk with hover
  · have hfirst := first_pos hover c
    have hlength : P.totalSamples.toNat = P.oversamples * P.channels := toNat_totalSamples htotal
    have hlt : n * P.channels < P.oversamples * P.channels := by omega
    exact Nat.lt_of_mul_lt_mul_right hlt
  · have hlt : n * P.channels < 1 * P.channels := by omega
    have hpos := P.oversamples_pos
    exact Nat.le_trans (Nat.lt_of_mul_lt_mul_right hlt) hpos

/-- What the handler adds the reading to: the sum of the readings so far, and nothing for the first
one that counts. -/
theorem toNat_accumulated {s : AdcSampler P χ} {win : List (χ → BitVec 16)}
    (h : s.Reading win.length) (hdata : Accumulated s.map s.data win) {n : ℕ}
    (hlength : win.length = first s.index + n * P.channels) :
    (if P.oversamples > 1 ∧ P.channels < s.samples.toNat then s.data.get s.index else 0).toNat =
      ∑ i ∈ Finset.range n, reading win (s.map.get s.index) (first s.index + i * P.channels) := by
  have hpos := P.channels_pos
  have hsamples := h.samples_eq
  cases n with
  | zero =>
    have hfirst := first_le s.index
    rw [if_neg, Finset.sum_range_zero]
    · rfl
    · rintro ⟨hover, hlt⟩
      rw [if_pos hover] at hsamples
      omega
  | succ n =>
    have hsucc : (n + 1) * P.channels = n * P.channels + P.channels := Nat.succ_mul _ _
    have hk := h.lt_length
    rw [AdcParams.readoutLength] at hk
    by_cases hover : P.oversamples > 1
    · have hfirst := first_pos hover s.index
      rw [if_pos hover] at hsamples
      rw [if_pos ⟨hover, by omega⟩]
      exact hdata s.index n (by omega) (Nat.le_of_eq hlength)
    · -- Without oversampling no channel is read twice.
      rw [if_neg hover] at hk
      omega

/-- The conversions in which a channel is read. -/
theorem eq_of_index {s : AdcSampler P χ} {k n : ℕ} (h : s.Reading k)
    (hlt : first s.index + n * P.channels < k + 1)
    (hle : k + 1 ≤ first s.index + (n + 1) * P.channels) :
    k = first s.index + n * P.channels := by
  have hsucc : (n + 1) * P.channels = n * P.channels + P.channels := Nat.succ_mul _ _
  have hmod : k % P.channels = (first s.index + n * P.channels) % P.channels := by
    rw [Nat.add_mul_mod_self_right, first_mod, h.index_eq]
  have hdvd := Nat.dvd_of_mod_eq_zero (Nat.sub_mod_eq_zero_of_mod_eq hmod)
  have hzero := Nat.eq_zero_of_dvd_of_lt hdvd (by omega)
  omega

theorem accumulated_accumulate (hsum : 2 ^ P.resolution * P.oversamples < 2 ^ 32)
    (htotal : P.oversamples * P.channels < 2 ^ 32) {s : AdcSampler P χ}
    {win : List (χ → BitVec 16)} (h : s.Reading win.length) (hdata : Accumulated s.map s.data win)
    (input : χ → BitVec 16)
    (hinput : ∀ f ∈ win ++ [input], ∀ channel, (f channel).toNat < 2 ^ P.resolution) :
    Accumulated s.map (s.accumulate (input (s.map.get s.index))) (win ++ [input]) := by
  intro c n hlt hle
  rw [List.length_append, List.length_singleton] at hlt hle
  have hbefore : ∀ i, first c + i * P.channels < win.length →
      reading (win ++ [input]) (s.map.get c) (first c + i * P.channels) =
        reading win (s.map.get c) (first c + i * P.channels) :=
    fun i hi => reading_append input _ hi
  by_cases hc : c = s.index
  · subst hc
    have hlength := eq_of_index h hlt hle
    have hnew : reading (win ++ [input]) (s.map.get s.index)
        (first s.index + n * P.channels) = (input (s.map.get s.index)).toNat := by
      rw [← hlength, reading_concat]
    have hold : ∑ i ∈ Finset.range n, reading (win ++ [input]) (s.map.get s.index)
        (first s.index + i * P.channels) =
        ∑ i ∈ Finset.range n, reading win (s.map.get s.index) (first s.index + i * P.channels) := by
      refine Finset.sum_congr rfl fun i hi => hbefore i ?_
      have hi' := Nat.mul_lt_mul_of_pos_right (Finset.mem_range.mp hi) P.channels_pos
      omega
    have hfits : ∑ i ∈ Finset.range (n + 1), reading (win ++ [input]) (s.map.get s.index)
        (first s.index + i * P.channels) < 2 ^ P.dataWidth :=
      sum_lt hsum (fun i => reading_lt (Nat.two_pow_pos _) hinput _ _)
        (succ_le_oversamples htotal h.lt_length (Nat.le_of_lt_succ hlt))
    rw [Finset.sum_range_succ, hnew, hold] at hfits ⊢
    have hvalue : ((input (s.map.get s.index)).setWidth P.dataWidth).toNat =
        (input (s.map.get s.index)).toNat := by
      rw [BitVec.toNat_setWidth, Nat.mod_eq_of_lt (by omega)]
    rw [get_accumulate_index, BitVec.toNat_add, toNat_accumulated h hdata hlength, hvalue,
      Nat.mod_eq_of_lt hfits]
  · have hne : first c + n * P.channels ≠ win.length := by
      intro he
      have hmod := first_mod c
      rw [← Nat.add_mul_mod_self_right, he, ← h.index_eq] at hmod
      exact hc (Fin.ext hmod.symm)
    have hlt' : first c + n * P.channels < win.length := by omega
    rw [get_accumulate_of_ne s _ hc, hdata c n hlt' (by omega)]
    refine Finset.sum_congr rfl fun i hi => (hbefore i ?_).symm
    have hi' := Nat.mul_le_mul_right P.channels (Nat.le_of_lt_succ (Finset.mem_range.mp hi))
    omega

/-- **The averages** of a readout with the inputs `win`: each channel was read `oversamples` times.
-/
def Averages (map : Vector χ P.channels) (data : Vector (BitVec P.dataWidth) P.channels)
    (win : List (χ → BitVec 16)) : Prop :=
  ∀ c, (data.get c).toNat = (∑ i ∈ Finset.range P.oversamples,
    reading win (map.get c) (first c + i * P.channels)) / P.oversamples

theorem averages_finish {s : AdcSampler P χ} {win : List (χ → BitVec 16)} {value : BitVec 16}
    (htotal : P.oversamples * P.channels < 2 ^ 32) (hlength : win.length = P.readoutLength)
    (hdata : Accumulated s.map (s.accumulate value) win) :
    Averages s.map (s.finish value).data win := by
  intro c
  have hpos := P.oversamples_pos
  have hlast : P.oversamples - 1 + 1 = P.oversamples := Nat.sub_add_cancel hpos
  have hmul : P.oversamples * P.channels = (P.oversamples - 1) * P.channels + P.channels := by
    rw [← Nat.succ_mul, Nat.succ_eq_add_one, hlast]
  have hbounds : first c + (P.oversamples - 1) * P.channels < P.readoutLength ∧
      P.readoutLength ≤ first c + P.oversamples * P.channels := by
    have hfirst := first_le c
    rw [AdcParams.readoutLength]
    split_ifs with hover
    · have hc := first_pos hover c
      rw [toNat_totalSamples htotal]
      omega
    · have hone : P.oversamples = 1 := by omega
      have hc : first c = c.val := if_neg fun h => hover h.1
      rw [hone, Nat.sub_self, Nat.zero_mul, hc, Nat.one_mul]
      exact ⟨c.isLt, Nat.le_add_left _ _⟩
  have hsum := hdata c (P.oversamples - 1) (by rw [hlength]; exact hbounds.1)
    (by rw [hlength, hlast]; exact hbounds.2)
  rw [hlast] at hsum
  have hget : ((s.finish value).data.get c) =
      BitVec.ofNat _ (((s.accumulate value).get c).toNat / P.oversamples) :=
    Vector.getElem_map _ c.isLt
  rw [hget, BitVec.toNat_ofNat, ← hsum]
  exact Nat.mod_eq_of_lt (Nat.lt_of_le_of_lt (Nat.div_le_self _ _) (BitVec.isLt _))

/-- **A readout going on**, with the inputs `win` so far: the next conversion is the one of the map,
and the array holds the sums. -/
structure Tracked (s : AdcSampler P χ) (win : List (χ → BitVec 16)) : Prop where
  reading : s.Reading win.length
  selected_eq : s.selected = some (s.map.get s.index)
  accumulated : Accumulated s.map s.data win

theorem startReadout_tracked {s : AdcSampler P χ} (hs : s.samples.toNat = 0) :
    s.startReadout.1.Tracked [] ∧ s.startReadout.1.map = s.map := by
  obtain ⟨hreading, hmap, hselected⟩ := startReadout_reading s hs
  exact ⟨⟨hreading, hmap ▸ hselected, accumulated_nil _ _⟩, hmap⟩

/-- **One more conversion** of a readout. -/
theorem step_tracked (hP : ¬ P.Endless) (hsum : 2 ^ P.resolution * P.oversamples < 2 ^ 32)
    (htotal : P.oversamples * P.channels < 2 ^ 32) {s t : AdcSampler P χ}
    {win : List (χ → BitVec 16)} {input : χ → BitVec 16}
    (hinputs : ∀ f ∈ win ++ [input], ∀ channel, (f channel).toNat < 2 ^ P.resolution)
    (h : s.Tracked win) (hstep : s.step (.conversion input) = .ok t) :
    t.map = s.map ∧ (t.Tracked (win ++ [input]) ∨ t.Idle ∧ t.newData = true ∧
      (win ++ [input]).length = P.readoutLength ∧ Averages t.map t.data (win ++ [input])) := by
  have hreading := h.reading
  have hdata := accumulated_accumulate hsum htotal hreading h.accumulated input hinputs
  have hlength : (win ++ [input]).length = win.length + 1 := by
    rw [List.length_append, List.length_singleton]
  rw [step_conversion hreading hP h.selected_eq, Except.ok.injEq] at hstep
  split_ifs at hstep with hk
  · exact hstep ▸ ⟨rfl, .inl ⟨hlength ▸ proceed_reading hreading hP _ hk, rfl, hdata⟩⟩
  · have hlast : (win ++ [input]).length = P.readoutLength :=
      hlength.trans (Nat.le_antisymm hreading.lt_length (Nat.le_of_not_lt hk))
    exact hstep ▸
      ⟨rfl, .inr ⟨finish_idle hreading _, rfl, hlast, averages_finish htotal hlast hdata⟩⟩

/-- What the data of a finished readout are. -/
def LastAverages (s : AdcSampler P χ) (readings : List (χ → BitVec 16)) : Prop :=
  ∃ earlier win, readings = earlier ++ win ∧ win.length = P.readoutLength ∧
    Averages s.map s.data win

/-- **The invariant** after the conversions with the inputs `readings`: no conversion is running,
and a finished readout has left its averages, or a readout is going on. -/
def Follows (s : AdcSampler P χ) (readings : List (χ → BitVec 16)) : Prop :=
  s.Idle ∧ (s.newData = true → s.LastAverages readings) ∨
    ∃ earlier win, readings = earlier ++ win ∧ s.Tracked win

theorem follows_startReadout {s : AdcSampler P χ} {readings : List (χ → BitVec 16)}
    (h : s.Follows readings) :
    s.startReadout.1.Follows readings ∧ s.startReadout.1.map = s.map := by
  rcases Nat.eq_zero_or_pos s.samples.toNat with hzero | hpos
  · obtain ⟨htracked, hmap⟩ := startReadout_tracked hzero
    exact ⟨.inr ⟨readings, [], (List.append_nil _).symm, htracked⟩, hmap⟩
  · have hsame : s.startReadout.1 = s := by
      rw [startReadout, if_pos hpos]
    rw [hsame]
    exact ⟨h, rfl⟩

theorem follows_conversion (hP : ¬ P.Endless) (hsum : 2 ^ P.resolution * P.oversamples < 2 ^ 32)
    (htotal : P.oversamples * P.channels < 2 ^ 32) {s t : AdcSampler P χ}
    {readings : List (χ → BitVec 16)} {input : χ → BitVec 16}
    (hinputs : ∀ f ∈ readings ++ [input], ∀ channel, (f channel).toNat < 2 ^ P.resolution)
    (h : s.Follows readings) (hstep : s.step (.conversion input) = .ok t) :
    t.Follows (readings ++ [input]) ∧ t.map = s.map := by
  rcases h with ⟨hidle, -⟩ | ⟨earlier, win, rfl, htracked⟩
  · rw [step, hidle.selected_eq] at hstep
    cases hstep
  · have hwin : ∀ f ∈ win ++ [input], ∀ channel, (f channel).toNat < 2 ^ P.resolution :=
      fun f hf => hinputs f (by
        rw [List.append_assoc]
        exact List.mem_append_right _ hf)
    obtain ⟨hmap, htracked' | ⟨hidle, -, hlength, haverages⟩⟩ :=
      step_tracked hP hsum htotal hwin htracked hstep
    · exact ⟨.inr ⟨earlier, _, List.append_assoc _ _ _, htracked'⟩, hmap⟩
    · exact ⟨.inl ⟨hidle, fun _ => ⟨earlier, _, List.append_assoc _ _ _, hlength, haverages⟩⟩,
        hmap⟩

/-! ### Runs -/

theorem inputs_concat_start (events : List (Event χ)) :
    inputs (events ++ [.start]) = inputs events := by
  simp [inputs]

theorem inputs_concat_conversion (events : List (Event χ)) (input : χ → BitVec 16) :
    inputs (events ++ [.conversion input]) = inputs events ++ [input] := by
  simp [inputs]

/-- `samples` wraps around before the readout ends. -/
theorem newData_of_endless (hP : P.Endless) {s t : AdcSampler P χ} {e : Event χ}
    (hs : s.newData = false) (hstep : s.step e = .ok t) : t.newData = false := by
  obtain ⟨hover, hwidth⟩ := P.endless_iff.mp hP
  cases e with
  | start =>
    cases hstep
    rw [startReadout]
    split_ifs
    · exact hs
    · rfl
  | conversion input =>
    cases hselected : s.selected with
    | none =>
      rw [step, hselected] at hstep
      cases hstep
    | some channel =>
      have hlt := (s.samples + 1).isLt
      have hle : (s.samples + 1).toNat ≤ P.totalSamples.toNat := by omega
      rw [step, hselected] at hstep
      cases hstep
      rw [sampleAdc_of_oversamples hover]
      exact (congrArg newData (if_pos hle)).trans hs

/-- The data that a finished readout has left are the averages of the last conversions. -/
theorem averages_of_run (hsum : 2 ^ P.resolution * P.oversamples < 2 ^ 32)
    (htotal : P.oversamples * P.channels < 2 ^ 32)
    {mapping : Vector χ P.channels} {data : Vector (BitVec P.dataWidth) P.channels}
    {events : List (Event χ)} {s : AdcSampler P χ}
    (hrun : Machine.run step (initial mapping data) events = .ok s)
    (hinputs : ∀ input ∈ inputs events, ∀ channel, (input channel).toNat < 2 ^ P.resolution)
    (hnew : s.newData = true) :
    ∃ earlier win, inputs events = earlier ++ win ∧ win.length = P.readoutLength ∧
      Averages mapping s.data win := by
  by_cases hP : P.Endless
  · have hfalse := Machine.run_invariant (motive := fun t => t.newData = false)
      (fun hs hstep => newData_of_endless hP hs hstep) rfl hrun
    rw [hfalse] at hnew
    cases hnew
  · have hfollows : s.Follows (inputs events) ∧ s.map = mapping := by
      refine Machine.run_history (motive := fun events s =>
        (∀ input ∈ inputs events, ∀ channel, (input channel).toNat < 2 ^ P.resolution) →
          s.Follows (inputs events) ∧ s.map = mapping) ?_ (fun _ => ?_) hrun hinputs
      · intro events s e t ih hstep hinputs
        cases e with
        | start =>
          cases hstep
          rw [inputs_concat_start] at hinputs ⊢
          obtain ⟨hfollows, hmap⟩ := ih hinputs
          obtain ⟨hfollows', hmap'⟩ := follows_startReadout hfollows
          exact ⟨hfollows', hmap'.trans hmap⟩
        | conversion input =>
          rw [inputs_concat_conversion] at hinputs ⊢
          obtain ⟨hfollows, hmap⟩ := ih fun f hf => hinputs f (List.mem_append_left _ hf)
          obtain ⟨hfollows', hmap'⟩ :=
            follows_conversion hP hsum htotal hinputs hfollows hstep
          exact ⟨hfollows', hmap'.trans hmap⟩
      · exact ⟨.inl ⟨⟨rfl, rfl⟩, fun h => by cases h⟩, rfl⟩
    obtain ⟨⟨-, haverages⟩ | ⟨-, win, -, htracked⟩, rfl⟩ := hfollows
    · exact haverages hnew
    · rw [htracked.reading.newData_eq] at hnew
      cases hnew

end AdcSampler

open AdcSampler

/-- The sampler of the board: current, voltage and temperature. -/
def sensors : AdcParams where
  channels := 3
  oversamples := 100
  resolution := 12
  channels_pos := by decide
  channels_lt := by decide
  oversamples_pos := by decide
  oversamples_lt := by decide

/-- With 85 samples instead of 100, no readout would end. -/
example : { sensors with
    oversamples := 85
    oversamples_pos := by decide
    oversamples_lt := by decide : AdcParams }.Endless := by
  decide

end Modellbahn
