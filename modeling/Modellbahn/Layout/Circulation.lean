import Modellbahn.Fibers.Interleaving
import Modellbahn.Simulation.Walk

/-!
# Circulation on the layout

The firmware starts between `A_1a` and `A_1b`. From there the train circulates: the directed edges
that it can reach are those of `circuit`, whatever the button says, and `circuit` contains no edge
together with its reversal. The siding `C_3a`, `C_3b`, `C_3c` lies on none of them. Its switch `C_c`
is passed from `C_b` to `D_1a` only and so never set to its curved leg, and the outputs of the
siding and of that leg stay `0`, also while the output loop is at work.

## Main definitions

* `Modellbahn.circuit`: the edges of the circulation.
* `Modellbahn.siding`, `Modellbahn.sidingOutputs`: what it leaves out.

## Main results

* `Modellbahn.circuit_closed`, `Modellbahn.circuit_oneWay`: the walk does not leave the circuit.
* `Modellbahn.circulation_one_way`: every run of the firmware.
-/

namespace Modellbahn

open TrackId PackedBits

/-- The edges on which the train circulates, each as the last and the current track. -/
def circuit : List (TrackId × TrackId) :=
  [(A_1a, A_1b), (A_1b, A_a), (A_a, B_1a), (B_1a, C_a),
    (C_a, C_1a), (C_1a, C_1b), (C_1b, C_b), (C_a, C_2a), (C_2a, C_2b), (C_2b, C_b),
    (C_b, C_c), (C_c, D_1a), (D_1a, A_d), (A_d, A_c), (A_c, A_1a),
    (A_c, A_2a), (A_2a, A_2b), (A_2b, A_b), (A_d, A_3a), (A_3a, A_3b), (A_3b, A_b), (A_b, A_a)]

/-- The siding behind `C_c`. -/
def siding : List TrackId := [C_3a, C_3b, C_3c]

theorem circuit_closed : DirectedWalk.Closed (tableMove tracks) {e | e ∈ circuit} := by
  have h : ∀ e ∈ circuit, ∀ button, tableStep tracks e button ∈ circuit := by decide
  exact h

theorem circuit_oneWay : DirectedWalk.OneWay {e | e ∈ circuit} := by
  have h : ∀ e ∈ circuit, e.swap ∉ circuit := by decide
  exact h

theorem circuit_avoids_siding : ∀ e ∈ circuit, e.1 ∉ siding ∧ e.2 ∉ siding := by decide

/-- The power positions of the siding and the curved output of `C_c`. -/
def sidingOutputs : List IoPosition := [⟨4, 7⟩, ⟨5, 0⟩, ⟨5, 1⟩, ⟨5, 7⟩]

/-! ### Runs of the firmware -/

variable {s t : Sim boards 22} {readings : List Bool}

/-- The last and the current track of a run of the firmware form an edge of the circuit. -/
theorem edge_mem_circuit (hrun : simulate Sim.initial readings = .ok s) : s.edge ∈ circuit := by
  rw [edge_of_simulate routed_initial hrun]
  exact DirectedWalk.foldl_mem_of_closed circuit_closed (by decide : Sim.initial.edge ∈ circuit) _

/-- **No edge is used in both directions**, neither in one run of the firmware nor in two. -/
theorem edge_ne_swap {readings' : List Bool} (hs : simulate Sim.initial readings = .ok s)
    (ht : simulate Sim.initial readings' = .ok t) : t.edge ≠ s.edge.swap := by
  rw [edge_of_simulate routed_initial hs, edge_of_simulate routed_initial ht]
  exact DirectedWalk.not_both_ways circuit_closed circuit_oneWay (by decide) _ _

theorem currentTrack_notMem_siding (hrun : simulate Sim.initial readings = .ok s) :
    (s.currentTrack : ℤ) ∉ siding :=
  (circuit_avoids_siding s.edge (edge_mem_circuit hrun)).2

theorem lastTrack_notMem_siding (hrun : simulate Sim.initial readings = .ok s) :
    (s.lastTrack : ℤ) ∉ siding :=
  (circuit_avoids_siding s.edge (edge_mem_circuit hrun)).1

/-- **The siding has no power.** -/
theorem siding_off (hrun : simulate Sim.initial readings = .ok s) {i : Fin 22}
    (hi : (i : ℤ) ∈ siding) : (s.tracks.get i).powerstate = .off := by
  cases hpower : (s.tracks.get i).powerstate with
  | off => rfl
  | on =>
    obtain rfl := exclusive_of_simulate routed_initial (Sim.exclusive_of_off off_initial) hrun i
      hpower
    exact absurd hi (currentTrack_notMem_siding hrun)

/-! ### The switch before the siding -/

/-- The index of `C_c`. -/
def indexC_c : Fin 22 := ⟨C_c.toNat, by decide⟩

/-- A switch is set to its curved leg only on the way from or to that leg. -/
theorem SwitchTrack.makeWayTo_ne_curved {q : SwitchTrack} {dest source : TrackId}
    (hq : q.state ≠ .curved) (hdest : dest ≠ q.trackB) (hsource : source ≠ q.trackB) :
    (q.makeWayTo dest source).2.state ≠ .curved := by
  simp only [makeWayTo, setLeg]
  split_ifs <;> simp_all

/-- `C_c` is as its constructor makes it, up to its state. -/
theorem switch_C_c (hrun : simulate Sim.initial readings = .ok s) {q : SwitchTrack}
    (hq : (s.tracks.get indexC_c).piece = .switchTrack q) :
    q.trackB = C_3c ∧ q.curved = ⟨5, 7⟩ := by
  have hpiece := (sameTable_of_simulate routed_initial hrun).piece_eq indexC_c
  rw [hq] at hpiece
  obtain ⟨-, -, hB, -, -, hcurved⟩ := SwitchTrack.mk.inj (Piece.switchTrack.inj hpiece)
  exact ⟨hB.symm, hcurved.symm⟩

/-- **`C_c` is never curved.** -/
theorem C_c_ne_curved (hrun : simulate Sim.initial readings = .ok s) {q : SwitchTrack}
    (hq : (s.tracks.get indexC_c).piece = .switchTrack q) : q.state ≠ .curved := by
  induction readings using List.reverseRecOn generalizing s q with
  | nil =>
    cases hrun
    cases hq
    decide
  | append_singleton before button ih =>
    obtain ⟨u, hu, hit⟩ := Machine.run_concat_eq_ok.mp hrun
    have hstep := step_of_iteration (routed_of_simulate routed_initial hu) hit
    rw [hstep.piece_eq] at hq
    split_ifs at hq with hcurrent
    · -- the pass leaves `C_c`, coming from and going to tracks that are not in the siding
      have hcurrent' : u.current = u.tracks.get indexC_c :=
        congrArg (fun i : Fin 22 => u.tracks.get i) hcurrent.symm
      rw [hcurrent'] at hq
      cases hp : (u.tracks.get indexC_c).piece with
      | straight w => rw [hp] at hq; cases hq
      | switchTrack w =>
        rw [hp] at hq
        cases hq
        have hleg : w.trackB ∈ siding := by
          rw [(switch_C_c hu hp).1]
          decide
        refine SwitchTrack.makeWayTo_ne_curved (ih hu hp) (fun he => ?_) fun he => ?_
        · exact currentTrack_notMem_siding hrun (by rw [he]; exact hleg)
        · exact lastTrack_notMem_siding hu (by rw [he]; exact hleg)
    · exact ih hu hq

/-! ### The outputs of the siding -/

/-- In every state of a run, the first one included, the bits of outputs that are off are `0`. -/
theorem bit_eq_false (hrun : simulate Sim.initial readings = .ok s) {p : IoPosition}
    (hp : Accepted boards p) (hoff : s.Encoded → s.out.bit p = .ok false) :
    s.out.bit p = .ok false := by
  by_cases hne : readings = []
  · subst hne
    cases hrun
    rw [Output.bit_eq boards_fits hp]
    exact congrArg Except.ok (congrFun image_replicate_zero _)
  · exact hoff (encoded_of_simulate boards_fits routed_initial wired_tracks rfl hne hrun)

theorem siding_bit (hrun : simulate Sim.initial readings = .ok s) (i : Fin 22)
    (hi : (i : ℤ) ∈ siding) : s.out.bit (tracks.get i).powerPos = .ok false := by
  have haccepted : Accepted boards (tracks.get i).powerPos :=
    wired_tracks.accepted _ (mem_flatMap_tracks.mpr ⟨i, List.mem_cons_self⟩)
  refine bit_eq_false hrun haccepted fun hencoded => ?_
  have hpos : (tracks.get i).powerPos = (s.tracks.get i).powerPos :=
    (sameTable_of_simulate routed_initial hrun).powerPos_eq i
  rw [hpos, hencoded.power, siding_off hrun hi]
  rfl

theorem curved_bit (hrun : simulate Sim.initial readings = .ok s) :
    s.out.bit ⟨5, 7⟩ = .ok false := by
  refine bit_eq_false hrun (by decide) fun hencoded => ?_
  cases hq : (s.tracks.get indexC_c).piece with
  | straight w =>
    have htype := (sameTable_of_simulate routed_initial hrun).type_eq indexC_c
    rw [Track.type, Track.type, hq] at htype
    cases htype
  | switchTrack w =>
    have hbit := (hencoded.switch indexC_c w hq).2
    rw [(switch_C_c hrun hq).2, decide_eq_false (C_c_ne_curved hrun hq)] at hbit
    exact hbit

/-- The outputs of the siding are off at every boundary. -/
theorem sidingOutputs_off (hrun : simulate Sim.initial readings = .ok s) :
    ∀ p ∈ sidingOutputs, s.out.bit p = .ok false := by
  simp only [sidingOutputs, List.forall_mem_cons, List.not_mem_nil, false_implies, implies_true,
    and_true]
  exact ⟨siding_bit hrun 18 (by decide), siding_bit hrun 19 (by decide),
    siding_bit hrun 20 (by decide), curved_bit hrun⟩

theorem sidingOutputs_accepted : ∀ p ∈ sidingOutputs, Accepted boards p := by decide

/-- The outputs of the siding are off at every time, in every interleaving of the fibers. -/
theorem sidingOutputs_off_of_run {events : List Event} {c : System boards 22}
    (hrun : (System.start Sim.initial).run events = .ok c) {p : IoPosition}
    (hp : p ∈ sidingOutputs) : c.sim.out.bit p = .ok false := by
  have haccepted := sidingOutputs_accepted p hp
  obtain ⟨i, hprogress⟩ := Progress.of_run boards_fits routed_initial wired_tracks rfl rfl hrun
  obtain ⟨k, t, -, -, ht, hbit⟩ := hprogress.bit_eq boards_fits (address boards p)
  have hoff := sidingOutputs_off ht p hp
  rw [Output.bit_eq boards_fits haccepted] at hoff ⊢
  rw [hbit, hoff]

/-- **The layout is circulated one way.** Whatever the readings of the button, no two boundaries of
the firmware have an edge and its reversal as the last and the current track. Hence the siding is
never entered and has no power, `C_c` is never curved, and the bits of the three power positions of
the siding and of the curved output of `C_c` are `0` at every boundary, and at every time in between
as well. -/
theorem circulation_one_way :
    (∀ readings readings' s t, simulate Sim.initial readings = .ok s →
      simulate Sim.initial readings' = .ok t → t.edge ≠ s.edge.swap) ∧
    (∀ readings, ∃ s, simulate Sim.initial readings = .ok s ∧
      (s.currentTrack : ℤ) ∉ siding ∧
      (∀ i : Fin 22, (i : ℤ) ∈ siding → (s.tracks.get i).powerstate = .off) ∧
      (∀ q, (s.tracks.get indexC_c).piece = .switchTrack q → q.state ≠ .curved) ∧
      ∀ p ∈ sidingOutputs, s.out.bit p = .ok false) ∧
    ∀ events c, (System.start Sim.initial).run events = .ok c →
      ∀ p ∈ sidingOutputs, c.sim.out.bit p = .ok false := by
  refine ⟨fun _ _ _ _ => edge_ne_swap, fun readings => ?_,
    fun _ _ hrun _ hp => sidingOutputs_off_of_run hrun hp⟩
  obtain ⟨s, hrun, -⟩ := exists_simulate boards_fits routed_initial readings
  exact ⟨s, hrun, currentTrack_notMem_siding hrun, fun i => siding_off hrun,
    fun q => C_c_ne_curved hrun, sidingOutputs_off hrun⟩

theorem circulation_one_way_two_passes :
    ∃ s t, simulate Sim.initial [true] = .ok s ∧ simulate Sim.initial [true, true] = .ok t ∧
      t.edge ≠ s.edge.swap ∧
      (∀ i : Fin 22, (i : ℤ) ∈ siding → (t.tracks.get i).powerstate = .off) ∧
      t.out.bit ⟨4, 7⟩ = .ok false := by
  obtain ⟨s, hs, -⟩ := circulation_one_way.2.1 [true]
  obtain ⟨t, ht, -, hoff, -, hbits⟩ := circulation_one_way.2.1 [true, true]
  exact ⟨s, t, hs, ht, circulation_one_way.1 _ _ s t hs ht, hoff, hbits _ List.mem_cons_self⟩

end Modellbahn
