import Modellbahn.Simulation.Loop
import Modellbahn.Track.Ways

/-!
# Routing

A table of tracks is *well formed* when entry `i` has id `i`, every connection is an index of the
table, and connections are reciprocal. The loop is *routed* when its table is well formed and the
last track is a connection of the current one. From a routed state one pass neither breaks nor reads
outside the table, and leads to a routed state again.

`Step s button t` says everything a pass from a routed state does; the results about runs use it and
do not unfold the pass.

## Main definitions

* `Modellbahn.WellFormed`, `Modellbahn.Sim.Connected`, `Modellbahn.Sim.Routed`.
* `Modellbahn.Step`: the effect of one pass.

## Main results

* `Modellbahn.exists_iteration`, `Modellbahn.step_of_iteration`: a pass from a routed state.
* `Modellbahn.Step.routed`: it keeps the state routed.
* `Modellbahn.routing_safe`: whole runs.
-/

namespace Modellbahn

open TrackId

/-! ### Well-formed tables -/

/-- A table of tracks in which entry `i` has id `i`, all connections are indices of the table, and
connections are reciprocal. -/
structure WellFormed {n : ℕ} (tracks : Vector Track n) : Prop where
  id_eq : ∀ i : Fin n, (tracks.get i).id = i
  valid : ∀ i : Fin n, ∀ c ∈ (tracks.get i).connections, 0 ≤ c ∧ c < n
  reciprocal : ∀ i j : Fin n, (j : ℤ) ∈ (tracks.get i).connections →
    (i : ℤ) ∈ (tracks.get j).connections

/-- The track as its constructor makes it, without power and in an unknown state. -/
def Track.constructed (t : Track) : Track :=
  { t with powerstate := .off, piece := t.piece.constructed }

@[simp] theorem Piece.connections_constructed (q : Piece) :
    q.constructed.connections = q.connections := by
  cases q <;> rfl

@[simp] theorem Piece.nextTracks_constructed (q : Piece) :
    q.constructed.nextTracks = q.nextTracks := by
  cases q <;> rfl

@[simp] theorem Piece.type_constructed (q : Piece) : q.constructed.type = q.type := by
  cases q <;> rfl

@[simp] theorem Piece.constructed_makeWayTo (q : Piece) (dest source : TrackId) :
    (q.makeWayTo dest source).2.constructed = q.constructed := by
  cases q with
  | straight s => rfl
  | switchTrack s =>
    simp only [makeWayTo, SwitchTrack.makeWayTo, SwitchTrack.setLeg, constructed]
    split_ifs <;> rfl

/-- The two tables differ in powers and switch states only. -/
def SameTable {n : ℕ} (tracks tracks' : Vector Track n) : Prop :=
  ∀ i : Fin n, (tracks.get i).constructed = (tracks'.get i).constructed

namespace SameTable

variable {n : ℕ} {u v w : Vector Track n}

theorem refl (v : Vector Track n) : SameTable v v := fun _ => rfl

theorem symm (h : SameTable v w) : SameTable w v := fun i => (h i).symm

theorem trans (h : SameTable u v) (h' : SameTable v w) : SameTable u w := fun i =>
  (h i).trans (h' i)

theorem id_eq (h : SameTable v w) (i : Fin n) : (v.get i).id = (w.get i).id := by
  change (v.get i).constructed.id = (w.get i).constructed.id
  rw [h i]

theorem powerPos_eq (h : SameTable v w) (i : Fin n) : (v.get i).powerPos = (w.get i).powerPos := by
  change (v.get i).constructed.powerPos = (w.get i).constructed.powerPos
  rw [h i]

theorem piece_eq (h : SameTable v w) (i : Fin n) :
    (v.get i).piece.constructed = (w.get i).piece.constructed := by
  change (v.get i).constructed.piece = (w.get i).constructed.piece
  rw [h i]

theorem connections_eq (h : SameTable v w) (i : Fin n) :
    (v.get i).connections = (w.get i).connections := by
  rw [Track.connections, ← Piece.connections_constructed, h.piece_eq,
    Piece.connections_constructed, Track.connections]

theorem nextTracks_eq (h : SameTable v w) (i : Fin n) :
    (v.get i).nextTracks = (w.get i).nextTracks := by
  unfold Track.nextTracks
  rw [← Piece.nextTracks_constructed, h.piece_eq, Piece.nextTracks_constructed]

theorem type_eq (h : SameTable v w) (i : Fin n) : (v.get i).type = (w.get i).type := by
  rw [Track.type, Track.type, ← Piece.type_constructed, h.piece_eq, Piece.type_constructed]

theorem wellFormed (h : SameTable v w) (hw : WellFormed v) : WellFormed w where
  id_eq i := (h.id_eq i).symm.trans (hw.id_eq i)
  valid i := h.connections_eq i ▸ hw.valid i
  reciprocal i j := h.connections_eq i ▸ h.connections_eq j ▸ hw.reciprocal i j

end SameTable

/-! ### Ways of a well-formed table -/

theorem TrackId.index?_coe {n : ℕ} (i : Fin n) : TrackId.index? n i = some i := by
  simp [TrackId.index?]

theorem TrackId.exists_coe {n : ℕ} {id : ℤ} (h0 : 0 ≤ id) (hn : id < n) : ∃ i : Fin n, id = i :=
  ⟨⟨id.toNat, by omega⟩, by simp [Int.toNat_of_nonneg h0]⟩

theorem TrackId.ne_INVALID_of_nonneg {id : ℤ} (h : 0 ≤ id) : id ≠ INVALID := by
  change id ≠ -1
  omega

namespace Piece

/-- A piece without invalid connections offers a way to a train from each connection, the first
entry being such a way. -/
theorem offers_first (q : Piece) (hvalid : ∀ c ∈ q.connections, c ≠ INVALID) {p : TrackId}
    (hp : p ∈ q.connections) : q.Offers p (q.nextTracks p).first := by
  refine ⟨?_, Ways.first_mem _⟩
  cases q with
  | straight s =>
    simp only [connections, List.mem_cons, List.not_mem_nil, or_false] at hp hvalid
    simp only [nextTracks, Straight.nextTracks]
    split_ifs with ha hb
    · exact hvalid _ (Or.inr rfl)
    · exact hvalid _ (Or.inl rfl)
    · exact absurd hp (not_or.mpr ⟨ha, hb⟩)
  | switchTrack s =>
    simp only [connections, List.mem_cons, List.not_mem_nil, or_false] at hp hvalid
    simp only [nextTracks, SwitchTrack.nextTracks]
    split_ifs with hc hl
    · exact hvalid _ (Or.inl rfl)
    · exact hvalid _ (Or.inr (Or.inr rfl))
    · exact absurd hp (by tauto)

/-- An offered way leads to a connection. -/
theorem mem_connections_of_offers (q : Piece) {p n : TrackId} (h : q.Offers p n) :
    n ∈ q.connections := by
  cases q with
  | straight s =>
    have := (s.mem_nextTracks_iff h.1).mp h.2
    simp only [connections, List.mem_cons, List.not_mem_nil, or_false]
    tauto
  | switchTrack s =>
    have := (s.mem_nextTracks_iff h.1).mp h.2
    simp only [connections, List.mem_cons, List.not_mem_nil, or_false]
    tauto

end Piece

namespace Sim

variable {bs : BoardTable} {n : ℕ}

/-- The last track is a connection of the current one. -/
def Connected (s : Sim bs n) : Prop := (s.lastTrack : ℤ) ∈ s.current.connections

instance (s : Sim bs n) : Decidable s.Connected := inferInstanceAs (Decidable (_ ∈ _))

/-- The table is well formed and the two pointers are connected. -/
structure Routed (s : Sim bs n) : Prop where
  wellFormed : WellFormed s.tracks
  connected : s.Connected

variable {s : Sim bs n}

theorem Routed.last_id (h : s.Routed) : s.last.id = s.lastTrack := h.wellFormed.id_eq _

theorem Routed.ne_INVALID (h : s.Routed) : ∀ c ∈ s.current.piece.connections, c ≠ INVALID :=
  fun c hc => ne_INVALID_of_nonneg (h.wellFormed.valid s.currentTrack c hc).1

theorem Routed.offers_first (h : s.Routed) :
    s.current.piece.Offers s.last.id s.possibleWays.first := by
  refine s.current.piece.offers_first h.ne_INVALID ?_
  rw [h.last_id]
  exact h.connected

/-- From a routed state the selected way is an offered way. -/
theorem Routed.offers_select (h : s.Routed) (button : Bool) :
    s.current.piece.Offers s.last.id (s.select button) := by
  rw [select]
  split_ifs with hsecond hbutton
  · exact ⟨hsecond, Ways.second_mem _⟩
  · exact h.offers_first
  · exact h.offers_first

end Sim

/-! ### One pass -/

theorem get_updateTrack {n : ℕ} (tracks : Vector Track n) (i j : Fin n) (f : Track → Track) :
    (updateTrack tracks i f).get j = if j = i then f (tracks.get j) else tracks.get j := by
  change (tracks.set i (f (tracks.get i)) i.isLt)[(j : ℕ)] = _
  rw [Vector.getElem_set]
  by_cases h : j = i
  · subst h
    rw [if_pos rfl, if_pos rfl]
  · rw [if_neg h, if_neg fun hv => h (Fin.ext hv.symm)]
    rfl

/-- The effect of one pass from a routed state `s` to the state `t`. -/
structure Step {bs : BoardTable} {n : ℕ} (s : Sim bs n) (button : Bool) (t : Sim bs n) : Prop where
  lastTrack_eq : t.lastTrack = s.currentTrack
  currentTrack_eq : (t.currentTrack : ℤ) = s.select button
  piece_eq : ∀ i : Fin n, (t.tracks.get i).piece =
    if i = s.currentTrack then (s.current.piece.makeWayTo t.currentTrack s.lastTrack).2
    else (s.tracks.get i).piece
  powerstate_eq : ∀ i : Fin n, (t.tracks.get i).powerstate =
    if i = t.currentTrack then .on else if i = s.currentTrack then .off
    else (s.tracks.get i).powerstate
  sameTable : SameTable s.tracks t.tracks
  out_eq : setBuffers { s.out with log := s.out.log ++ [s.moveLine t.currentTrack] }
    (outputCalls t.tracks) = .ok t.out

variable {bs : BoardTable} {n : ℕ} {s t : Sim bs n} {button : Bool}

theorem Sim.get_makeWay (s : Sim bs n) (select : TrackId) (i : Fin n) :
    (s.makeWay select).tracks.get i =
      if i = s.currentTrack then ((s.tracks.get i).makeWayTo select s.last.id).2
      else s.tracks.get i :=
  get_updateTrack ..

theorem Sim.sameTable_makeWay (s : Sim bs n) (select : TrackId) :
    SameTable s.tracks (s.makeWay select).tracks := fun i => by
  rw [s.get_makeWay]
  split_ifs
  · simp [Track.constructed, Track.makeWayTo]
  · rfl

theorem Sim.get_moveTo (s : Sim bs n) (next i : Fin n) :
    (s.moveTo next).tracks.get i =
      { s.tracks.get i with
        powerstate := if i = next then .on else if i = s.currentTrack then .off
          else (s.tracks.get i).powerstate } := by
  simp only [moveTo, get_updateTrack]
  split_ifs <;> rfl

theorem Sim.sameTable_moveTo (s : Sim bs n) (next : Fin n) :
    SameTable s.tracks (s.moveTo next).tracks := fun i => by
  rw [s.get_moveTo]
  rfl

theorem Sim.piece_makeWay (s : Sim bs n) (select : TrackId) (i : Fin n) :
    ((s.makeWay select).tracks.get i).piece =
      if i = s.currentTrack then (s.current.piece.makeWayTo select s.last.id).2
      else (s.tracks.get i).piece := by
  rw [s.get_makeWay]
  split_ifs with hi
  · subst hi
    rfl
  · rfl

theorem Sim.powerstate_makeWay (s : Sim bs n) (select : TrackId) (i : Fin n) :
    ((s.makeWay select).tracks.get i).powerstate = (s.tracks.get i).powerstate := by
  rw [s.get_makeWay]
  split_ifs <;> rfl

/-- After the selected way is set from a routed state, `next_track` takes it. -/
theorem Sim.Routed.nextId_makeWay (h : s.Routed) (button : Bool) :
    (s.makeWay (s.select button)).nextId = s.select button := by
  have hlast : (s.makeWay (s.select button)).last.id = s.last.id :=
    ((s.sameTable_makeWay _).id_eq s.lastTrack).symm
  have hcurrent : (s.makeWay (s.select button)).current =
      (s.current.makeWayTo (s.select button) s.last.id).2 := by
    change (s.makeWay (s.select button)).tracks.get s.currentTrack = _
    rw [s.get_makeWay, if_pos rfl]
    rfl
  rw [Sim.nextId, hlast, hcurrent]
  exact (s.current.piece.makeWayTo_of_offers (h.offers_select button)).2.1

/-- From a routed state the selected way leads to a track of the table, connected to the current
one in both directions. -/
theorem Sim.Routed.exists_next (h : s.Routed) (button : Bool) :
    ∃ next : Fin n, s.select button = next ∧ (next : ℤ) ∈ s.current.connections ∧
      (s.currentTrack : ℤ) ∈ (s.tracks.get next).connections := by
  have hmem := s.current.piece.mem_connections_of_offers (h.offers_select button)
  obtain ⟨h0, hn⟩ := h.wellFormed.valid s.currentTrack _ hmem
  obtain ⟨next, hnext⟩ := TrackId.exists_coe h0 hn
  rw [hnext] at hmem
  exact ⟨next, hnext, hmem, h.wellFormed.reciprocal _ _ hmem⟩

/-- From a routed state a pass reaches the output loop. -/
theorem Sim.Routed.advance_eq (h : s.Routed) {next : Fin n} (hnext : s.select button = next) :
    advance s button = .ok ((s.makeWay (s.select button)).moveTo next) := by
  rw [advance, if_neg h.offers_first.1, h.nextId_makeWay, hnext, TrackId.index?_coe]

/-- Everything up to the output loop is as a `Step` says. -/
theorem Sim.Routed.step (h : s.Routed) {next : Fin n} (hnext : s.select button = next)
    {out : Output bs}
    (hout : setBuffers ((s.makeWay (s.select button)).moveTo next).out
      (outputCalls ((s.makeWay (s.select button)).moveTo next).tracks) = .ok out) :
    Step s button { (s.makeWay (s.select button)).moveTo next with out := out } where
  lastTrack_eq := rfl
  currentTrack_eq := hnext.symm
  piece_eq i := by
    change (((s.makeWay (s.select button)).moveTo next).tracks.get i).piece =
      if i = s.currentTrack then (s.current.piece.makeWayTo next s.lastTrack).2
      else (s.tracks.get i).piece
    rw [Sim.get_moveTo, ← hnext, ← h.last_id]
    exact s.piece_makeWay _ i
  powerstate_eq i := by
    change (((s.makeWay (s.select button)).moveTo next).tracks.get i).powerstate =
      if i = next then .on else if i = s.currentTrack then .off else (s.tracks.get i).powerstate
    rw [Sim.get_moveTo, ← s.powerstate_makeWay (s.select button)]
    rfl
  sameTable := (s.sameTable_makeWay _).trans (Sim.sameTable_moveTo _ next)
  out_eq := by
    have hid := (s.sameTable_makeWay (s.select button)).id_eq
    have hcurrent : (s.makeWay (s.select button)).current.id = s.current.id :=
      (hid s.currentTrack).symm
    have hlast : (s.makeWay (s.select button)).last.id = s.last.id := (hid s.lastTrack).symm
    have hline : (s.makeWay (s.select button)).moveLine next = s.moveLine next := by
      rw [Sim.moveLine, Sim.moveLine, hcurrent, hlast, hid next]
    have hmove : ((s.makeWay (s.select button)).moveTo next).out =
        { s.out with log := s.out.log ++ [s.moveLine next] } := by
      rw [← hline]
      rfl
    rw [hmove] at hout
    exact hout

/-- **A pass from a routed state** succeeds. -/
theorem exists_iteration (hfit : bs.Fits) (h : s.Routed) (button : Bool) :
    ∃ t, iteration s button = .ok t ∧ Step s button t := by
  obtain ⟨next, hnext, -⟩ := h.exists_next button
  obtain ⟨out, hout, -⟩ := exists_setBuffers hfit
    ((s.makeWay (s.select button)).moveTo next).out
    (outputCalls ((s.makeWay (s.select button)).moveTo next).tracks)
  refine ⟨_, ?_, h.step hnext hout⟩
  rw [iteration, h.advance_eq hnext]
  simp only [hout]
  rfl

/-- A pass from a routed state has the effect of a `Step`. -/
theorem step_of_iteration (h : s.Routed) (hit : iteration s button = .ok t) : Step s button t := by
  obtain ⟨next, hnext, -⟩ := h.exists_next button
  rw [iteration, h.advance_eq hnext] at hit
  cases hout : setBuffers ((s.makeWay (s.select button)).moveTo next).out
      (outputCalls ((s.makeWay (s.select button)).moveTo next).tracks) with
  | error e =>
    simp only [hout] at hit
    cases hit
  | ok out =>
    simp only [hout] at hit
    cases hit
    exact h.step hnext hout

namespace Step

variable (hstep : Step s button t)
include hstep

theorem current_connections : t.current.connections = (s.tracks.get t.currentTrack).connections :=
  (hstep.sameTable.connections_eq t.currentTrack).symm

/-- The track entered is connected to the track left. -/
theorem connected (h : s.Routed) : t.Connected := by
  obtain ⟨next, hnext, -, hback⟩ := h.exists_next button
  have hcurrent : t.currentTrack = next := by
    have := hstep.currentTrack_eq.trans hnext
    exact Fin.ext (by exact_mod_cast this)
  subst hcurrent
  rw [Sim.Connected, hstep.current_connections, hstep.lastTrack_eq]
  exact hback

/-- **A pass keeps the loop routed.** -/
theorem routed (h : s.Routed) : t.Routed where
  wellFormed := hstep.sameTable.wellFormed h.wellFormed
  connected := hstep.connected h

end Step

/-! ### Runs -/

/-- From a routed state every list of readings has a run, which stays routed. -/
theorem exists_simulate (hfit : bs.Fits) (h : s.Routed) (readings : List Bool) :
    ∃ t, simulate s readings = .ok t ∧ t.Routed := by
  refine Machine.exists_run (fun u button hu => ?_) h readings
  obtain ⟨t, hit, hstep⟩ := exists_iteration hfit hu button
  exact ⟨t, hit, hstep.routed hu⟩

/-- **Invariants of runs.** What every pass from a routed state keeps, every run from a routed state
keeps, and it stays routed. -/
theorem simulate_invariant (Inv : Sim bs n → Prop)
    (hinv : ∀ {u : Sim bs n} {button : Bool} {v : Sim bs n}, Step u button v → Inv u → Inv v)
    (h : s.Routed) (hs : Inv s) {readings : List Bool} (hrun : simulate s readings = .ok t) :
    t.Routed ∧ Inv t := by
  have hpass : ∀ {u : Sim bs n} {button : Bool} {v : Sim bs n}, u.Routed ∧ Inv u →
      iteration u button = .ok v → v.Routed ∧ Inv v := by
    intro u button v hu hit
    have hstep := step_of_iteration hu.1 hit
    exact ⟨hstep.routed hu.1, hinv hstep hu.2⟩
  exact Machine.run_invariant hpass ⟨h, hs⟩ hrun

theorem routed_of_simulate (h : s.Routed) {readings : List Bool}
    (hrun : simulate s readings = .ok t) : t.Routed :=
  (simulate_invariant (fun _ => True) (fun _ _ => trivial) h trivial hrun).1

/-- A run changes powers and switch states of the table only. -/
theorem sameTable_of_simulate (h : s.Routed) {readings : List Bool}
    (hrun : simulate s readings = .ok t) : SameTable s.tracks t.tracks :=
  (simulate_invariant (fun u => SameTable s.tracks u.tracks)
    (fun hstep hu => hu.trans hstep.sameTable) h (SameTable.refl _) hrun).2

theorem wellFormed_tracks : WellFormed tracks where
  id_eq := by decide
  valid := by decide
  reciprocal := by decide

theorem routed_initial : Sim.initial.Routed where
  wellFormed := wellFormed_tracks
  connected := by decide

/-- **Routing is safe over whole runs.** From a well-formed table with any switch states and any
connected start pair, every list of readings has a run; and in each state on the way, whatever the
button says, the first of `possible_ways` is valid, `next_id` is an index of the table, and the pass
moves to that track, which is a connection of the current one in both directions. The table and the
start pair of the firmware are such. -/
theorem routing_safe :
    (∀ {bs : BoardTable}, bs.Fits → ∀ {n : ℕ} (s₀ : Sim bs n), WellFormed s₀.tracks →
      s₀.Connected → ∀ readings, ∃ s, simulate s₀ readings = .ok s ∧ s.Connected ∧
        ∀ button, s.possibleWays.first ≠ INVALID ∧
          ∃ next : Fin n, TrackId.index? n (s.makeWay (s.select button)).nextId = some next ∧
            (next : ℤ) ∈ s.current.connections ∧
            (s.currentTrack : ℤ) ∈ (s.tracks.get next).connections ∧
            ∃ t, iteration s button = .ok t ∧ t.lastTrack = s.currentTrack ∧
              t.currentTrack = next ∧ t.Connected) ∧
    WellFormed Sim.initial.tracks ∧ Sim.initial.Connected := by
  refine ⟨fun hfit _ s₀ hwf hconn readings => ?_, routed_initial.wellFormed,
    routed_initial.connected⟩
  obtain ⟨s, hrun, hs⟩ := exists_simulate hfit ⟨hwf, hconn⟩ readings
  refine ⟨s, hrun, hs.connected, fun button => ⟨hs.offers_first.1, ?_⟩⟩
  obtain ⟨next, hnext, hmem, hback⟩ := hs.exists_next button
  obtain ⟨t, hit, hstep⟩ := exists_iteration hfit hs button
  have hcurrent : (t.currentTrack : ℤ) = next := hstep.currentTrack_eq.trans hnext
  refine ⟨next, ?_, hmem, hback, t, hit, hstep.lastTrack_eq, Fin.ext (by exact_mod_cast hcurrent),
    hstep.connected hs⟩
  rw [hs.nextId_makeWay, hnext, TrackId.index?_coe]

/-- The firmware after three passes, the button pressed in the last one. -/
theorem routing_safe_layout :
    ∃ s, simulate Sim.initial [false, false, true] = .ok s ∧ s.Connected ∧
      ∀ button, s.possibleWays.first ≠ INVALID ∧
        ∃ next : Fin 22, TrackId.index? 22 (s.makeWay (s.select button)).nextId = some next ∧
          (next : ℤ) ∈ s.current.connections ∧
          (s.currentTrack : ℤ) ∈ (s.tracks.get next).connections ∧
          ∃ t, iteration s button = .ok t ∧ t.lastTrack = s.currentTrack ∧
            t.currentTrack = next ∧ t.Connected :=
  routing_safe.1 boards_fits Sim.initial wellFormed_tracks (by decide) [false, false, true]

end Modellbahn
