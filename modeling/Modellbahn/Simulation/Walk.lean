import Modellbahn.Foundation.DirectedWalk
import Modellbahn.Simulation.Routing

/-!
# The loop as a walk on the table

The loop decides its next move from the state that `make_way_to` has left in a switch. For a routed
loop this is the same as a walk that keeps no state: from the last and the current track it goes on
to one of the offered ways, as the button says (`tableStep`). Hence the initial states of the
switches matter neither for the way of the train nor for the powers, and after the first pass of a
switch not even for the state of that switch.

A pass sets the switch it leaves for the way back as well. As long as no switch is passed twice, the
train can go back over its whole way without any further setting (`route_stays_set`).

## Main definitions

* `Modellbahn.tableMove`, `Modellbahn.tableStep`: the walk without switch states.
* `Modellbahn.tableNextTrack`: the walk by `next_track` alone.
* `Modellbahn.Sim.edge`: the last and the current track.

## Main results

* `Modellbahn.Step.edge_eq`: a pass is a move of the walk.
* `Modellbahn.loop_refines_walk`, `Modellbahn.route_stays_set`.
-/

namespace Modellbahn

open TrackId

/-! ### The walk without switch states -/

/-- `tracks[current]->next_tracks(last)`, without ways where `current` is no index. -/
def tableWays {n : ℕ} (tracks : Vector Track n) (last current : TrackId) : Ways :=
  match TrackId.index? n current with
  | some i => (tracks.get i).nextTracks last
  | none => noWays

/-- The second way where there is one and the button is pressed, the first one otherwise. -/
def tableMove {n : ℕ} (tracks : Vector Track n) (last current : TrackId) (button : Bool) :
    TrackId :=
  if (tableWays tracks last current).second ≠ INVALID ∧ button = true then
    (tableWays tracks last current).second
  else (tableWays tracks last current).first

/-- One move of the walk, from the last and the current track. -/
def tableStep {n : ℕ} (tracks : Vector Track n) :
    TrackId × TrackId → Bool → TrackId × TrackId :=
  DirectedWalk.step (tableMove tracks)

/-- The last and the current track. -/
def Sim.edge {bs : BoardTable} {n : ℕ} (s : Sim bs n) : TrackId × TrackId :=
  (s.lastTrack, s.currentTrack)

variable {bs : BoardTable} {n : ℕ} {s t s' t' : Sim bs n} {button : Bool}

theorem Sim.edge_inj : s.edge = s'.edge ↔
    s.lastTrack = s'.lastTrack ∧ s.currentTrack = s'.currentTrack := by
  simp only [edge, Prod.mk.injEq, Int.natCast_inj, Fin.val_inj]

theorem SameTable.tableStep_eq {v w : Vector Track n} (h : SameTable v w) :
    tableStep v = tableStep w := by
  have hways : tableWays v = tableWays w := by
    ext last current : 2
    rw [tableWays, tableWays]
    split
    · rw [h.nextTracks_eq]
    · rfl
  simp only [tableStep, funext_iff, tableMove, DirectedWalk.step, hways, implies_true]

/-- The selection of the loop is the move of the walk. -/
theorem Sim.Routed.select_eq (h : s.Routed) (button : Bool) :
    s.select button = tableMove s.tracks s.lastTrack s.currentTrack button := by
  have hways : tableWays s.tracks s.lastTrack s.currentTrack = s.possibleWays := by
    rw [tableWays, TrackId.index?_coe, ← h.last_id]
    rfl
  rw [Sim.select, tableMove, hways]
  split_ifs <;> tauto

/-- **A pass is a move of the walk.** -/
theorem Step.edge_eq (hstep : Step s button t) (h : s.Routed) :
    t.edge = tableStep s.tracks s.edge button := by
  rw [Sim.edge, hstep.lastTrack_eq, hstep.currentTrack_eq, h.select_eq]
  rfl

/-- A pass is a move of the walk on the table `tracks`, from which that of the loop differs in
powers and switch states only. -/
theorem tableStep_of_iteration {tracks : Vector Track n}
    (h : s.Routed ∧ SameTable tracks s.tracks) (hit : iteration s button = .ok t) :
    (t.Routed ∧ SameTable tracks t.tracks) ∧ t.edge = tableStep tracks s.edge button := by
  have hstep := step_of_iteration h.1 hit
  refine ⟨⟨hstep.routed h.1, h.2.trans hstep.sameTable⟩, ?_⟩
  rw [hstep.edge_eq h.1, h.2.tableStep_eq]

/-- A run of the loop is a walk on its table. -/
theorem edge_of_simulate (h : s.Routed) {readings : List Bool}
    (hrun : simulate s readings = .ok t) : t.edge = readings.foldl (tableStep s.tracks) s.edge :=
  Machine.run_map tableStep_of_iteration ⟨h, SameTable.refl _⟩ hrun

theorem trail_edge (h : s.Routed) {readings : List Bool} {l : List (Sim bs n)}
    (hl : Machine.trail iteration s readings = .ok l) :
    l.map Sim.edge = readings.scanl (tableStep s.tracks) s.edge :=
  Machine.trail_map tableStep_of_iteration ⟨h, SameTable.refl _⟩ hl

/-- From a routed state every list of readings has a trail, which ends with a routed state. -/
theorem exists_trail (hfit : bs.Fits) (h : s.Routed) (readings : List Bool) :
    ∃ l t, Machine.trail iteration s readings = .ok l ∧ l.getLast? = some t ∧
      simulate s readings = .ok t ∧ t.Routed := by
  obtain ⟨t, hrun, ht⟩ := exists_simulate hfit h readings
  obtain ⟨l, hl, hlast⟩ := Machine.exists_trail hrun
  exact ⟨l, t, hl, hlast, hrun, ht⟩

/-! ### Two runs with different switch states -/

/-- The state that an offered way gives to a switch does not depend on the one it had. -/
theorem SwitchTrack.setLeg_congr {q q' : SwitchTrack}
    (h : { q with state := .unknown } = { q' with state := .unknown }) {leg : TrackId}
    (hleg : leg = q.trackA ∨ leg = q.trackB) : q.setLeg leg = q'.setLeg leg := by
  obtain ⟨state, a, b, c, straight, curved⟩ := q
  obtain ⟨state', a', b', c', straight', curved'⟩ := q'
  obtain ⟨-, rfl, rfl, rfl, rfl, rfl⟩ := SwitchTrack.mk.inj h
  simp only [setLeg] at hleg ⊢
  split_ifs with ha hb
  · rfl
  · rfl
  · exact absurd hleg (not_or.mpr ⟨ha, hb⟩)

theorem Piece.makeWayTo_congr {q q' : Piece} (h : q.constructed = q'.constructed)
    {p n : TrackId} (hoffer : q.Offers p n) : (q.makeWayTo n p).2 = (q'.makeWayTo n p).2 := by
  cases q with
  | straight u =>
    cases q' with
    | straight u' => exact h
    | switchTrack u' => cases h
  | switchTrack u =>
    cases q' with
    | straight u' => cases h
    | switchTrack u' =>
      have hu := Piece.switchTrack.inj h
      have hc : u.trackCommon = u'.trackCommon := (SwitchTrack.mk.inj hu).2.2.2.1
      simp only [makeWayTo, SwitchTrack.makeWayTo, ← hc]
      rcases (u.mem_nextTracks_iff hoffer.1).mp hoffer.2 with ⟨rfl, hleg⟩ | ⟨hp, hleg, rfl⟩
      · rw [if_pos rfl, if_pos rfl, SwitchTrack.setLeg_congr hu hleg]
      · rw [if_neg hp, if_neg hp, if_pos rfl, if_pos rfl, SwitchTrack.setLeg_congr hu hleg]

/-- Two routed states that differ in switch states, in the output buffer and in the log only. -/
structure SameCourse (s s' : Sim bs n) : Prop where
  routed : s.Routed
  sameTable : SameTable s.tracks s'.tracks
  edge_eq : s.edge = s'.edge
  powerstate_eq : ∀ i : Fin n, (s.tracks.get i).powerstate = (s'.tracks.get i).powerstate

namespace SameCourse

theorem lastTrack_eq (h : SameCourse s s') : s.lastTrack = s'.lastTrack :=
  (Sim.edge_inj.mp h.edge_eq).1

theorem currentTrack_eq (h : SameCourse s s') : s.currentTrack = s'.currentTrack :=
  (Sim.edge_inj.mp h.edge_eq).2

theorem routed' (h : SameCourse s s') : s'.Routed where
  wellFormed := h.sameTable.wellFormed h.routed.wellFormed
  connected := by
    have hc : (s.lastTrack : ℤ) ∈ (s'.tracks.get s.currentTrack).connections :=
      h.sameTable.connections_eq s.currentTrack ▸ h.routed.connected
    change (s'.lastTrack : ℤ) ∈ (s'.tracks.get s'.currentTrack).connections
    simpa only [h.lastTrack_eq, h.currentTrack_eq] using hc

/-- Under equal readings two such states lead to two such states. -/
theorem step (h : SameCourse s s') (hstep : Step s button t) (hstep' : Step s' button t') :
    SameCourse t t' := by
  have hedge : t.edge = t'.edge := by
    rw [hstep.edge_eq h.routed, hstep'.edge_eq h.routed', h.sameTable.tableStep_eq, h.edge_eq]
  refine ⟨hstep.routed h.routed, (hstep.sameTable.symm.trans h.sameTable).trans hstep'.sameTable,
    hedge, fun i => ?_⟩
  rw [hstep.powerstate_eq, hstep'.powerstate_eq, (Sim.edge_inj.mp hedge).2, h.currentTrack_eq,
    h.powerstate_eq]

/-- The track that both leave is then in the same state in both. -/
theorem piece_eq_of_step (h : SameCourse s s') (hstep : Step s button t)
    (hstep' : Step s' button t') :
    (t.tracks.get s.currentTrack).piece = (t'.tracks.get s.currentTrack).piece := by
  have hoffer := h.routed.offers_select button
  rw [← hstep.currentTrack_eq, h.routed.last_id] at hoffer
  have hcurrent := (Sim.edge_inj.mp (h.step hstep hstep').edge_eq).2
  rw [hstep.piece_eq, hstep'.piece_eq, if_pos rfl, if_pos h.currentTrack_eq, ← h.lastTrack_eq,
    ← hcurrent]
  refine Piece.makeWayTo_congr ?_ hoffer
  have := h.sameTable.piece_eq s.currentTrack
  simpa only [Sim.current, h.currentTrack_eq] using this

theorem piece_eq_step (h : SameCourse s s') (hstep : Step s button t) (hstep' : Step s' button t')
    {i : Fin n} (hi : (s.tracks.get i).piece = (s'.tracks.get i).piece) :
    (t.tracks.get i).piece = (t'.tracks.get i).piece := by
  by_cases hcurrent : i = s.currentTrack
  · subst hcurrent
    exact h.piece_eq_of_step hstep hstep'
  · rw [hstep.piece_eq, hstep'.piece_eq, if_neg hcurrent,
      if_neg (h.currentTrack_eq ▸ hcurrent), hi]

end SameCourse

/-- Two such states that agree on the state of the track `i`. -/
def AgreeAt (i : Fin n) (s s' : Sim bs n) : Prop :=
  SameCourse s s' ∧ (s.tracks.get i).piece = (s'.tracks.get i).piece

theorem SameCourse.pass (h : SameCourse s s') (hit : iteration s button = .ok t)
    (hit' : iteration s' button = .ok t') : SameCourse t t' :=
  h.step (step_of_iteration h.routed hit) (step_of_iteration h.routed' hit')

theorem AgreeAt.pass {i : Fin n} (h : AgreeAt i s s') (hit : iteration s button = .ok t)
    (hit' : iteration s' button = .ok t') : AgreeAt i t t' :=
  ⟨h.1.pass hit hit', h.1.piece_eq_step (step_of_iteration h.1.routed hit)
    (step_of_iteration h.1.routed' hit') h.2⟩

/-- The tracks that the loop leaves on a trail: all current tracks but the last one. -/
def passed (l : List (Sim bs n)) : List (Fin n) := (l.map Sim.currentTrack).dropLast

theorem passed_cons (s t : Sim bs n) (l : List (Sim bs n)) :
    passed (s :: t :: l) = s.currentTrack :: passed (t :: l) := rfl

/-- The powers of the tracks. -/
def Sim.powers (s : Sim bs n) (i : Fin n) : Power := (s.tracks.get i).powerstate

/-- Two runs under equal readings agree on the state of every track passed. -/
theorem SameCourse.piece_eq_of_passed {readings : List Bool} {l : List (Sim bs n)}
    {u u' : Sim bs n} (h : SameCourse s s') (hl : Machine.trail iteration s readings = .ok l)
    (hu : simulate s readings = .ok u) (hu' : simulate s' readings = .ok u') {i : Fin n}
    (hi : i ∈ passed l) : (u.tracks.get i).piece = (u'.tracks.get i).piece := by
  induction readings generalizing s s' l with
  | nil =>
    cases hl
    cases hi
  | cons button readings ih =>
    obtain ⟨t, l₁, hit, hl₁, rfl⟩ := Machine.trail_cons_eq_ok.mp hl
    obtain ⟨v, hit₁, hrun⟩ := Machine.run_cons_eq_ok.mp hu
    obtain ⟨t', hit', hrun'⟩ := Machine.run_cons_eq_ok.mp hu'
    obtain rfl : t = v := Except.ok.inj (hit.symm.trans hit₁)
    have hstep := step_of_iteration h.routed hit
    have hstep' := step_of_iteration h.routed' hit'
    obtain ⟨l₂, rfl⟩ := Machine.trail_eq_cons hl₁
    rcases List.mem_cons.mp (passed_cons s t l₂ ▸ hi) with rfl | hi
    · have hstart : AgreeAt s.currentTrack t t' :=
        ⟨h.step hstep hstep', h.piece_eq_of_step hstep hstep'⟩
      exact (Machine.run_lockstep AgreeAt.pass hstart hrun hrun').2
    · exact ih (h.step hstep hstep') hl₁ hrun hrun' hi

/-- **The loop refines the walk without switch states.** From a well-formed table and a connected
start pair, the pairs of the last and the current track are those of the walk. Hence two runs under
equal readings that start with different switch states have equal pairs and powers at every
boundary, and at the end agree on the state of every track that has been passed. -/
theorem loop_refines_walk (hfit : bs.Fits) :
    (∀ s₀ : Sim bs n, WellFormed s₀.tracks → s₀.Connected → ∀ readings,
      ∃ l, Machine.trail iteration s₀ readings = .ok l ∧
        l.map Sim.edge = readings.scanl (tableStep s₀.tracks) s₀.edge) ∧
    ∀ s₀ s₀' : Sim bs n, WellFormed s₀.tracks → s₀.Connected →
      SameTable s₀.tracks s₀'.tracks → s₀.edge = s₀'.edge → s₀.powers = s₀'.powers →
      ∀ readings, ∃ l l' u u', Machine.trail iteration s₀ readings = .ok l ∧
        Machine.trail iteration s₀' readings = .ok l' ∧
        l.map Sim.edge = l'.map Sim.edge ∧ l.map Sim.powers = l'.map Sim.powers ∧
        l.getLast? = some u ∧ l'.getLast? = some u' ∧
        ∀ i ∈ passed l, (u.tracks.get i).piece = (u'.tracks.get i).piece := by
  refine ⟨fun s₀ hwf hconn readings => ?_, fun s₀ s₀' hwf hconn htable hedge hpower readings => ?_⟩
  · obtain ⟨l, -, hl, -⟩ := exists_trail hfit ⟨hwf, hconn⟩ readings
    exact ⟨l, hl, trail_edge ⟨hwf, hconn⟩ hl⟩
  · have h : SameCourse s₀ s₀' := ⟨⟨hwf, hconn⟩, htable, hedge, fun i => congrFun hpower i⟩
    obtain ⟨l, u, hl, hlast, hrun, -⟩ := exists_trail hfit h.routed readings
    obtain ⟨l', u', hl', hlast', hrun', -⟩ := exists_trail hfit h.routed' readings
    have hall := Machine.trail_lockstep SameCourse.pass h hl hl'
    refine ⟨l, l', u, u', hl, hl', ?_, ?_, hlast, hlast', fun i hi =>
      h.piece_eq_of_passed hl hrun hrun' hi⟩
    · rw [← List.forall₂_eq_eq_eq, List.forall₂_map_left_iff, List.forall₂_map_right_iff]
      exact hall.imp fun _ _ hab => hab.edge_eq
    · rw [← List.forall₂_eq_eq_eq, List.forall₂_map_left_iff, List.forall₂_map_right_iff]
      exact hall.imp fun _ _ hab => funext hab.powerstate_eq

/-- The start of the firmware, but with `A_a` set to its curved leg. -/
def curvedStart : Sim boards 22 :=
  { Sim.initial with
    tracks := updateTrack tracks ⟨A_a.toNat, by decide⟩ fun t => (t.makeWayTo A_b B_1a).2 }

theorem sameTable_curvedStart : SameTable Sim.initial.tracks curvedStart.tracks := by
  unfold SameTable
  decide

/-- The firmware from both starts. -/
theorem loop_refines_walk_layout :
    ∃ l l' u u', Machine.trail iteration Sim.initial [false, true, false] = .ok l ∧
      Machine.trail iteration curvedStart [false, true, false] = .ok l' ∧
      l.map Sim.edge = l'.map Sim.edge ∧ l.map Sim.powers = l'.map Sim.powers ∧
      l.getLast? = some u ∧ l'.getLast? = some u' ∧
      ∀ i ∈ passed l, (u.tracks.get i).piece = (u'.tracks.get i).piece :=
  (loop_refines_walk boards_fits).2 Sim.initial curvedStart wellFormed_tracks (by decide)
    sameTable_curvedStart rfl (funext (by decide)) [false, true, false]

/-! ### The way back -/

/-- `tracks[current]->next_track(previous)`, or `INVALID` where `current` is no index. -/
def tableNextTrack {n : ℕ} (tracks : Vector Track n) (previous current : TrackId) : TrackId :=
  match TrackId.index? n current with
  | some i => (tracks.get i).nextTrack previous
  | none => INVALID

/-- After a pass the track left leads back to where the train came from. -/
theorem Step.nextTrack_back (hstep : Step s button t) (h : s.Routed) :
    (t.tracks.get s.currentTrack).nextTrack t.currentTrack = s.lastTrack := by
  have hoffer := h.offers_select button
  rw [← hstep.currentTrack_eq, h.last_id] at hoffer
  rw [Track.nextTrack, hstep.piece_eq, if_pos rfl]
  exact (s.current.piece.makeWayTo_of_offers hoffer).2.2

/-- A pass changes no track but the one left, and no straight track at all. -/
theorem Step.piece_eq_of_ne (hstep : Step s button t) {i : Fin n}
    (hi : (s.tracks.get i).type = .switch → i ≠ s.currentTrack) :
    (t.tracks.get i).piece = (s.tracks.get i).piece := by
  rw [hstep.piece_eq]
  split_ifs with hcurrent
  · subst hcurrent
    change ((s.tracks.get s.currentTrack).piece.makeWayTo _ _).2 = _
    cases hp : (s.tracks.get s.currentTrack).piece with
    | straight q => rfl
    | switchTrack q => exact absurd rfl (hi (by rw [Track.type, hp]; rfl))
  · rfl

/-- A run leaves the tracks alone that it does not pass. -/
theorem piece_eq_of_notMem_passed {readings : List Bool} {l : List (Sim bs n)} {u : Sim bs n}
    (h : s.Routed) (hl : Machine.trail iteration s readings = .ok l)
    (hu : simulate s readings = .ok u) {i : Fin n}
    (hi : (s.tracks.get i).type = .switch → i ∉ passed l) :
    (u.tracks.get i).piece = (s.tracks.get i).piece := by
  induction readings generalizing s l with
  | nil => cases hu; rfl
  | cons button readings ih =>
    obtain ⟨t, l₁, hit, hl₁, rfl⟩ := Machine.trail_cons_eq_ok.mp hl
    obtain ⟨v, hit₁, hrun⟩ := Machine.run_cons_eq_ok.mp hu
    obtain rfl : t = v := Except.ok.inj (hit.symm.trans hit₁)
    have hstep := step_of_iteration h hit
    obtain ⟨l₂, rfl⟩ := Machine.trail_eq_cons hl₁
    rw [passed_cons] at hi
    rw [ih (hstep.routed h) hl₁ hrun fun htype =>
      List.not_mem_of_not_mem_cons (hi (hstep.sameTable.type_eq i ▸ htype))]
    exact hstep.piece_eq_of_ne fun htype => List.ne_of_not_mem_cons (hi htype)

/-- **Every turn of a run can be undone at its end**, where no switch is passed twice. -/
theorem isChain_back {readings : List Bool} {l : List (Sim bs n)} {u : Sim bs n}
    (h : s.Routed) (hl : Machine.trail iteration s readings = .ok l)
    (hu : simulate s readings = .ok u)
    (hnodup : ((passed l).filter fun i => (s.tracks.get i).type = .switch).Nodup) :
    (l.map Sim.edge).IsChain fun d d' =>
      DirectedWalk.back (tableNextTrack u.tracks) d'.swap = d.swap := by
  induction readings generalizing s l with
  | nil => cases hl; exact .singleton _
  | cons button readings ih =>
    obtain ⟨t, l₁, hit, hl₁, rfl⟩ := Machine.trail_cons_eq_ok.mp hl
    obtain ⟨v, hit₁, hrun⟩ := Machine.run_cons_eq_ok.mp hu
    obtain rfl : t = v := Except.ok.inj (hit.symm.trans hit₁)
    have hstep := step_of_iteration h hit
    obtain ⟨l₂, rfl⟩ := Machine.trail_eq_cons hl₁
    rw [passed_cons, List.filter_cons] at hnodup
    have hrest : ((passed (t :: l₂)).filter fun i => (s.tracks.get i).type = .switch).Nodup := by
      split_ifs at hnodup
      · exact hnodup.of_cons
      · exact hnodup
    have htype : (fun i : Fin n => decide ((s.tracks.get i).type = .switch)) =
        fun i => decide ((t.tracks.get i).type = .switch) :=
      funext fun i => by rw [hstep.sameTable.type_eq i]
    refine List.isChain_cons_cons.mpr ⟨?_, ih (hstep.routed h) hl₁ hrun (htype ▸ hrest)⟩
    have hkeep : (u.tracks.get s.currentTrack).piece = (t.tracks.get s.currentTrack).piece := by
      refine piece_eq_of_notMem_passed (hstep.routed h) hl₁ hrun fun hswitch hmem => ?_
      rw [← hstep.sameTable.type_eq] at hswitch
      rw [if_pos (by simpa using hswitch), List.nodup_cons] at hnodup
      exact hnodup.1 (List.mem_filter.mpr ⟨hmem, by simpa using hswitch⟩)
    have hback : tableNextTrack u.tracks t.currentTrack s.currentTrack = s.lastTrack := by
      rw [tableNextTrack, TrackId.index?_coe]
      change (u.tracks.get s.currentTrack).piece.nextTrack _ = _
      rw [hkeep]
      exact hstep.nextTrack_back h
    simp only [DirectedWalk.back, Sim.edge, Prod.swap_prod_mk, hstep.lastTrack_eq, hback]

/-- **The route stays set behind the train.** In a run from a well-formed table and a connected
start pair with any switch states, take a segment in which no switch is passed twice. At its end,
with the switch states as they are, a walk by `next_track` alone from the current track back to the
last one retraces the segment to its first pair. -/
theorem route_stays_set (hfit : bs.Fits) (s₀ : Sim bs n) (hwf : WellFormed s₀.tracks)
    (hconn : s₀.Connected) (before readings : List Bool) :
    ∃ s l u, simulate s₀ before = .ok s ∧ Machine.trail iteration s readings = .ok l ∧
      l.getLast? = some u ∧
      (((passed l).filter fun i => (s.tracks.get i).type = .switch).Nodup →
        List.iterate (DirectedWalk.back (tableNextTrack u.tracks)) u.edge.swap l.length =
          (l.map fun v => v.edge.swap).reverse) := by
  obtain ⟨s, hrun, hs⟩ := exists_simulate hfit ⟨hwf, hconn⟩ before
  obtain ⟨l, u, hl, hlast, hu, -⟩ := exists_trail hfit hs readings
  refine ⟨s, l, u, hrun, hl, hlast, fun hnodup => ?_⟩
  have hend : (l.map Sim.edge).getLast? = some u.edge := by rw [List.getLast?_map, hlast]; rfl
  have hretrace := DirectedWalk.retrace hend (isChain_back hs hl hu hnodup)
  rwa [List.length_map, List.map_map] at hretrace

/-- The firmware over `A_a` and `C_a`, after one pass. -/
theorem route_stays_set_layout :
    ∃ s l u, simulate Sim.initial [false] = .ok s ∧
      Machine.trail iteration s [false, false, true, false] = .ok l ∧ l.getLast? = some u ∧
      List.iterate (DirectedWalk.back (tableNextTrack u.tracks)) u.edge.swap l.length =
        (l.map fun v => v.edge.swap).reverse := by
  obtain ⟨s, l, u, hs, hl, hlast, hback⟩ := route_stays_set boards_fits Sim.initial
    wellFormed_tracks (by decide) [false] [false, false, true, false]
  refine ⟨s, l, u, hs, hl, hlast, hback ?_⟩
  have hpassed : (simulate Sim.initial [false]).map (fun s =>
      (Machine.trail iteration s [false, false, true, false]).map fun l =>
        (passed l).filter fun i => (s.tracks.get i).type = .switch) = .ok (.ok [4, 11]) := by
    decide +kernel
  simp only [hs, hl, Except.map, Except.ok.injEq] at hpassed
  rw [hpassed]
  decide

end Modellbahn
