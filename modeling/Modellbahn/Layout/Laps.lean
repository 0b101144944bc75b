import Modellbahn.Firmware.Timing
import Modellbahn.Layout.Circulation

/-!
# Laps

Every lap of the train goes over `B_1a`, whichever ways the button selects: over one of the tracks
`C_1` and `C_2`, which are equally long, and over one of `A_1`, `A_2` and `A_3`, which are not. A
lap takes 12 or 13 passes of the simulation, and so 1.2 seconds at least by the clock.

## Main definitions

* `Modellbahn.toB_1a`: the passes from each track up to `B_1a`.

## Main results

* `Modellbahn.lap_time`: the laps in a run of the firmware.
-/

namespace Modellbahn

open TrackId

/-- The tracks of the circuit, each with the fewest and the most passes up to `B_1a`. -/
def toB_1a : List (TrackId × ℕ × ℕ) :=
  [(B_1a, 12, 13), (C_a, 11, 12), (C_1a, 10, 11), (C_2a, 10, 11), (C_1b, 9, 10), (C_2b, 9, 10),
    (C_b, 8, 9), (C_c, 7, 8), (D_1a, 6, 7), (A_d, 5, 6), (A_c, 4, 5), (A_1a, 3, 3), (A_2a, 4, 4),
    (A_3a, 4, 4), (A_1b, 2, 2), (A_2b, 3, 3), (A_3b, 3, 3), (A_b, 2, 2), (A_a, 1, 1)]

/-- The fewest passes up to `B_1a`. -/
def fewest (track : TrackId) : ℕ := ((toB_1a.lookup track).getD (0, 0)).1

/-- The most passes up to `B_1a`. -/
def most (track : TrackId) : ℕ := ((toB_1a.lookup track).getD (0, 0)).2

theorem most_circuit : ∀ e ∈ circuit, ∀ button,
    if tableMove tracks e.1 e.2 button = B_1a then 1 ≤ most e.2
    else most (tableMove tracks e.1 e.2 button) + 1 ≤ most e.2 := by decide

theorem fewest_circuit : ∀ e ∈ circuit, ∀ button,
    if tableMove tracks e.1 e.2 button = B_1a then fewest e.2 ≤ 1
    else fewest e.2 ≤ fewest (tableMove tracks e.1 e.2 button) + 1 := by decide

theorem bounds_circuit : ∀ e ∈ circuit,
    1 ≤ fewest e.2 ∧ fewest e.2 ≤ 12 ∧ 1 ≤ most e.2 ∧ most e.2 ≤ 13 := by decide

/-- How often the train comes to `B_1a` from an edge on. -/
def laps : TrackId × TrackId → List Bool → ℕ := DirectedWalk.visits (tableMove tracks) B_1a

/-- **Laps take 12 or 13 passes.** -/
theorem laps_bounds {e : TrackId × TrackId} (he : e ∈ circuit) (passes : List Bool) :
    12 * laps e passes < passes.length + 12 ∧ passes.length < 13 * laps e passes + 13 := by
  have hend := DirectedWalk.foldl_mem_of_closed circuit_closed he passes
  have hmost := DirectedWalk.length_add_le_of_far circuit_closed most_circuit (M := 13) (by decide)
    he passes
  have hfewest := DirectedWalk.near_add_le_length circuit_closed fewest_circuit (m := 12)
    (by decide) he passes
  obtain ⟨hfewest₁, -, -, hmost₁⟩ := bounds_circuit e he
  obtain ⟨-, hfewest₂, hmost₂, -⟩ := bounds_circuit _ hend
  rw [laps]
  omega

/-! ### The firmware -/

namespace Firmware

variable {bs : BoardTable} {n : ℕ} {cfg : Config}

/-- The train is where the passes have led it. -/
theorem Sound.edge_eq {s : Firmware boards 22} (h : Sound Sim.initial s) :
    s.sim.edge = s.readings.foldl (tableStep tracks) Sim.initial.edge := by
  obtain ⟨events, hreadings, hrun⟩ := h.tracked.exists_run
  obtain ⟨t, ht, hboundary⟩ := System.boundary_of_run boards_fits routed_initial
    (System.boundary_start _) hrun
  obtain ⟨out, -, rfl⟩ := Machine.exists_ok_of_map hboundary
  rw [hreadings] at ht
  have hedge := edge_of_simulate routed_initial ht
  exact hedge

theorem exists_passes {s t : Firmware bs n} {es : List FirmwareEvent}
    (hrun : s.run cfg es = .ok t) : ∃ passes, t.readings = s.readings ++ passes := by
  refine Machine.run_invariant (motive := fun t => ∃ passes, t.readings = s.readings ++ passes) ?_
    ⟨[], (List.append_nil _).symm⟩ hrun
  intro t e u ⟨passes, hpasses⟩ hstep
  rcases step_simulation_cases hstep with ⟨-, hreadings, -⟩ | ⟨-, button, v, turn, hresume, -, hv⟩
  · exact ⟨passes, hreadings.trans hpasses⟩
  · rw [hv]
    cases hresume with
    | pass =>
      refine ⟨passes ++ [button], ?_⟩
      change t.readings ++ [button] = _
      rw [hpasses, List.append_assoc]
    | _ => exact ⟨passes, hpasses⟩

end Firmware

/-- **The laps of the train.** From any state of any run of the firmware on, whatever the button
says in the passes and whatever the other fibers and the hardware do: the train comes to `B_1a` at
least once in 13 passes, it needs 12 passes at least to come there again, and each lap takes 1.2
seconds at least by the clock. -/
theorem lap_time (cfg : Config) (hmin : 16 ≤ cfg.frequency) (hmax : cfg.frequency < 2 ^ 29)
    (order : List FiberId) (horder : ∀ f, f ∈ order) (boot s t : Firmware boards 22)
    (es es' : List FirmwareEvent) (hboot : Firmware.boot Sim.initial order = .ok boot)
    (hs : boot.run cfg es = .ok s) (ht : s.run cfg es' = .ok t) :
    ∃ passes, t.readings = s.readings ++ passes ∧
      t.sim.edge = passes.foldl (tableStep tracks) s.sim.edge ∧
      12 * laps s.sim.edge passes < passes.length + 12 ∧
      passes.length < 13 * laps s.sim.edge passes + 13 ∧
      s.milliTicks cfg + 1200 * (laps s.sim.edge passes - 1) ≤ t.milliTicks cfg := by
  have hsound := (Firmware.Sound.of_boot horder hboot).run boards_fits routed_initial hs
  have hsound' := hsound.run boards_fits routed_initial ht
  obtain ⟨passes, hpasses⟩ := Firmware.exists_passes ht
  have hedge := hsound.edge_eq
  have hedge' := hsound'.edge_eq
  rw [hpasses, List.foldl_append, ← hedge] at hedge'
  have hcircuit : s.sim.edge ∈ circuit := by
    rw [hedge]
    exact DirectedWalk.foldl_mem_of_closed circuit_closed (by decide) _
  obtain ⟨hlower, hupper⟩ := laps_bounds hcircuit passes
  have hspaced : s.Spaced cfg t := Machine.run_invariant
    (fun hs hstep => Firmware.Spaced.step hmin hmax hs hstep) (Firmware.Spaced.refl cfg s) ht
  have htime := hspaced.le
  have hlength : t.readings.length - s.readings.length = passes.length := by
    rw [hpasses, List.length_append, Nat.add_sub_cancel_left]
  rw [hlength] at htime
  exact ⟨passes, hpasses, hedge', hlower, hupper, by omega⟩

/-- A pass every 125 ms, with 48 steps of the fibers. -/
def steadyPasses (k : ℕ) : List FirmwareEvent :=
  (List.replicate k (List.replicate 128 .count ++ List.replicate 48 (.cpu false))).flatten

/-- Fourteen passes lead to `B_1a` twice. -/
theorem lap_time_twice :
    ∃ s t : Firmware boards 22, Firmware.boot Sim.initial simulationFirst = .ok s ∧
      s.run slowConfig (steadyPasses 14) = .ok t ∧ t.readings = List.replicate 14 false ∧
      t.sim.edge = t.readings.foldl (tableStep tracks) s.sim.edge ∧
      laps s.sim.edge t.readings = 2 ∧ 12 * 2 < t.readings.length + 12 ∧
      t.readings.length < 13 * 2 + 13 ∧
      s.milliTicks slowConfig + 1200 * (2 - 1) ≤ t.milliTicks slowConfig := by
  have h : ((Firmware.boot Sim.initial simulationFirst).bind fun s : Firmware boards 22 =>
      (s.run slowConfig (steadyPasses 14)).map fun t =>
        (s.readings, laps s.sim.edge t.readings, t.readings)) =
      .ok ([], 2, List.replicate 14 false) := by
    decide +kernel
  obtain ⟨s, hs, h⟩ := Machine.exists_ok_of_bind h
  obtain ⟨t, ht, hvalues⟩ := Machine.exists_ok_of_map h
  obtain ⟨hfirst, hlaps, hlast⟩ : s.readings = [] ∧ laps s.sim.edge t.readings = 2 ∧
      t.readings = List.replicate 14 false := by
    simpa only [Prod.mk.injEq] using hvalues
  obtain ⟨passes, hpasses, hedge, hlower, hupper, htime⟩ := lap_time slowConfig (by decide)
    (by decide) simulationFirst mem_simulationFirst s s t [] (steadyPasses 14) hs rfl ht
  obtain rfl : t.readings = passes := by rw [hpasses, hfirst, List.nil_append]
  rw [hlaps] at hlower hupper htime
  exact ⟨s, t, hs, ht, hlast, hedge, hlaps, hlower, hupper, htime⟩

end Modellbahn
