import Modellbahn.Simulation.Routing

/-!
# The output buffer as an image of the tracks

The output loop changes single bits of a buffer that is never cleared, and skips switches in an
unknown state. From a zero buffer on, its result is nevertheless a function of the table alone:
after every pass the buffer is the one that the calls for the present table leave on a zero buffer
(`image_eq_render`), because a bit that was ever written is written in every later pass.

Where the positions of a table are accepted and distinct (`Wired`), that buffer can be read back:
the bit of a power position says whether the track has power, and the two bits of a switch say which
of the two known states it is in.

## Main definitions

* `Modellbahn.positions`, `Modellbahn.Wired`: the outputs of a table.
* `Modellbahn.render`: the bits of a table.
* `Modellbahn.Sim.Encoded`: the buffer encodes the powers and the switch states.

## Main results

* `Modellbahn.image_eq_render`: the buffer after a run.
* `Modellbahn.outBuffer_encodes_state`, `Modellbahn.one_powered_section`.
-/

namespace Modellbahn

open PackedBits TrackId

/-! ### The outputs of a table -/

/-- The outputs of a piece: those of the two states of a switch. -/
def Piece.positions : Piece → List IoPosition
  | straight _ => []
  | switchTrack s => [s.straight, s.curved]

/-- The outputs of a track. -/
def Track.positions (t : Track) : List IoPosition := t.powerPos :: t.piece.positions

/-- All outputs of a table, in the order of the output loop. -/
def positions {n : ℕ} (tracks : Vector Track n) : List IoPosition :=
  tracks.toList.flatMap Track.positions

/-- All outputs of the table are accepted by `set_buffer`, and no two are equal. -/
structure Wired (bs : BoardTable) {n : ℕ} (tracks : Vector Track n) : Prop where
  accepted : ∀ p ∈ positions tracks, Accepted bs p
  nodup : (positions tracks).Nodup

/-- The state of every output of a piece. -/
def Piece.assignments : Piece → List (IoPosition × Bool)
  | straight _ => []
  | switchTrack s => [(s.straight, s.state = .straight), (s.curved, s.state = .curved)]

/-- The state of every output of a track. -/
def Track.assignments (t : Track) : List (IoPosition × Bool) :=
  (t.powerPos, t.powerstate = .on) :: t.piece.assignments

/-- The state of every output of a table. -/
def assignments {n : ℕ} (tracks : Vector Track n) : List (IoPosition × Bool) :=
  tracks.toList.flatMap Track.assignments

theorem Track.map_fst_assignments (t : Track) : t.assignments.map Prod.fst = t.positions := by
  obtain ⟨id, pos, power, piece⟩ := t
  cases piece <;> rfl

variable {bs : BoardTable} {n : ℕ}

theorem map_fst_assignments (tracks : Vector Track n) :
    (assignments tracks).map Prod.fst = positions tracks := by
  rw [assignments, positions, List.map_flatMap]
  exact List.flatMap_congr fun t _ => t.map_fst_assignments

/-- The output loop leaves out the outputs of switches in an unknown state, which are off. -/
theorem Track.outputCalls_sublist (t : Track) : t.outputCalls.Sublist t.assignments := by
  refine List.Sublist.cons_cons _ ?_
  obtain ⟨id, pos, power, piece⟩ := t
  cases piece with
  | straight s => exact List.Sublist.refl _
  | switchTrack s =>
    cases hs : s.state <;> simp [Piece.outputCalls, SwitchTrack.outputCalls, Piece.assignments, hs]

theorem Track.skipped_off (t : Track) {call : IoPosition × Bool} (h : call ∈ t.assignments)
    (hnot : call ∉ t.outputCalls) : call.2 = false := by
  obtain ⟨id, pos, power, piece⟩ := t
  cases piece with
  | straight s => exact absurd h hnot
  | switchTrack s =>
    cases hs : s.state <;>
      simp_all [Track.assignments, Track.outputCalls, Piece.outputCalls, SwitchTrack.outputCalls,
        Piece.assignments]
    rcases h with rfl | rfl <;> rfl

theorem mem_flatMap_tracks {α : Type} {f : Track → List α} {tracks : Vector Track n} {a : α} :
    a ∈ tracks.toList.flatMap f ↔ ∃ i : Fin n, a ∈ f (tracks.get i) := by
  simp only [List.mem_flatMap, Vector.mem_toList_iff, Vector.mem_iff_getElem]
  constructor
  · rintro ⟨t, ⟨i, hi, rfl⟩, ha⟩
    exact ⟨⟨i, hi⟩, ha⟩
  · rintro ⟨i, ha⟩
    exact ⟨_, ⟨i, i.isLt, rfl⟩, ha⟩

theorem outputCalls_sublist (tracks : Vector Track n) :
    (outputCalls tracks).Sublist (assignments tracks) := by
  rw [outputCalls, assignments]
  induction tracks.toList with
  | nil => exact List.Sublist.refl _
  | cons t l ih => exact t.outputCalls_sublist.append ih

theorem skipped_off {tracks : Vector Track n} {call : IoPosition × Bool}
    (h : call ∈ assignments tracks) (hnot : call ∉ outputCalls tracks) : call.2 = false := by
  obtain ⟨i, hi⟩ := mem_flatMap_tracks.mp h
  exact (tracks.get i).skipped_off hi fun hcall => hnot (mem_flatMap_tracks.mpr ⟨i, hcall⟩)

/-! ### The bits of a table -/

/-- The bits that the output loop for the table leaves on a zero buffer. -/
def render (bs : BoardTable) (tracks : Vector Track n) : ℕ × ℕ → Bool :=
  WriteLog.apply (fun _ => false) (writes bs (outputCalls tracks))

namespace Wired

variable {tracks : Vector Track n}

theorem accepted_of_mem (h : Wired bs tracks) {call : IoPosition × Bool}
    (hcall : call ∈ assignments tracks) : Accepted bs call.1 :=
  h.accepted call.1 (map_fst_assignments tracks ▸ List.mem_map_of_mem hcall)

theorem writes_assignments (h : Wired bs tracks) :
    writes bs (assignments tracks) =
      (assignments tracks).map fun call => (address bs call.1, call.2) :=
  writes_eq_map fun _ hcall => h.accepted_of_mem hcall

/-- No two outputs of the table share a bit. -/
theorem nodup_writes (h : Wired bs tracks) :
    ((writes bs (assignments tracks)).map Prod.fst).Nodup := by
  have hmap : (writes bs (assignments tracks)).map Prod.fst =
      (positions tracks).map (address bs) := by
    rw [h.writes_assignments, ← map_fst_assignments, List.map_map, List.map_map]
    rfl
  rw [hmap]
  exact h.nodup.map_on fun p hp q hq he =>
    address_injective (h.accepted p hp) (h.accepted q hq) he

/-- The outputs left out by the output loop are those of a fresh buffer. -/
theorem render_eq (h : Wired bs tracks) :
    render bs tracks = WriteLog.apply (fun _ => false) (writes bs (assignments tracks)) := by
  refine WriteLog.apply_sublist _ h.nodup_writes
    (((outputCalls_sublist tracks).filter _).map _) fun w hw hnot => ?_
  rw [h.writes_assignments] at hw
  obtain ⟨call, hcall, rfl⟩ := List.mem_map.mp hw
  refine (skipped_off hcall fun hmem => hnot ?_).symm
  exact List.mem_map_of_mem (List.mem_filter.mpr ⟨hmem, by simpa using h.accepted_of_mem hcall⟩)

/-- The bit of an output is its state. -/
theorem render_of_mem (h : Wired bs tracks) {call : IoPosition × Bool}
    (hcall : call ∈ assignments tracks) : render bs tracks (address bs call.1) = call.2 := by
  have hmem : (address bs call.1, call.2) ∈ writes bs (assignments tracks) := by
    rw [h.writes_assignments]
    exact List.mem_map_of_mem hcall
  rw [h.render_eq]
  exact WriteLog.apply_eq_of_mem _ h.nodup_writes hmem

/-- The bits of no output of the table are `0`. -/
theorem render_of_notMem (h : Wired bs tracks) {cell : ℕ × ℕ}
    (hcell : ∀ p ∈ positions tracks, address bs p ≠ cell) : render bs tracks cell = false := by
  rw [h.render_eq, WriteLog.apply_of_notMem]
  intro w hw
  rw [h.writes_assignments] at hw
  obtain ⟨call, hcall, rfl⟩ := List.mem_map.mp hw
  exact hcell call.1 (map_fst_assignments tracks ▸ List.mem_map_of_mem hcall)

end Wired

/-! ### The buffer after a pass -/

/-- The bits that the output loop for the table does not write are `0`. -/
def Sim.Fresh (s : Sim bs n) : Prop :=
  ∀ cell, (∀ w ∈ writes bs (outputCalls s.tracks), w.1 ≠ cell) →
    image s.out.outBuffer cell = false

variable {s t : Sim bs n} {button : Bool}

/-- A known state of a switch stays known. -/
theorem Piece.mem_outputCalls_makeWayTo (q : Piece) (dest source : TrackId) {p : IoPosition}
    (hp : p ∈ q.outputCalls.map Prod.fst) :
    p ∈ (q.makeWayTo dest source).2.outputCalls.map Prod.fst := by
  cases q with
  | straight u => exact hp
  | switchTrack u =>
    have hleg : ∀ leg, p ∈ (u.setLeg leg).outputCalls.map Prod.fst := by
      intro leg
      rw [SwitchTrack.setLeg]
      cases hu : u.state <;> split_ifs <;>
        simp_all [Piece.outputCalls, SwitchTrack.outputCalls]
    simp only [makeWayTo, SwitchTrack.makeWayTo]
    split_ifs
    · exact hleg dest
    · exact hleg source
    · exact hp

/-- An output that is written stays written. -/
theorem Step.mem_outputCalls (hstep : Step s button t) {p : IoPosition}
    (hp : p ∈ (outputCalls s.tracks).map Prod.fst) : p ∈ (outputCalls t.tracks).map Prod.fst := by
  obtain ⟨call, hcall, rfl⟩ := List.mem_map.mp hp
  obtain ⟨i, hi⟩ := mem_flatMap_tracks.mp hcall
  have hmem : call.1 ∈ (t.tracks.get i).outputCalls.map Prod.fst := by
    rcases List.mem_cons.mp hi with rfl | hpiece
    · rw [show ((s.tracks.get i).powerPos, decide ((s.tracks.get i).powerstate = .on)).1 =
        (t.tracks.get i).powerPos from hstep.sameTable.powerPos_eq i]
      exact List.mem_cons_self
    · refine List.mem_cons_of_mem _ ?_
      rw [hstep.piece_eq]
      split_ifs with hcurrent
      · subst hcurrent
        exact Piece.mem_outputCalls_makeWayTo _ _ _ (List.mem_map_of_mem hpiece)
      · exact List.mem_map_of_mem hpiece
  obtain ⟨call', hcall', he⟩ := List.mem_map.mp hmem
  exact he ▸ List.mem_map_of_mem (mem_flatMap_tracks.mpr ⟨i, hcall'⟩)

/-- The output loop of a pass is a log of writes. -/
theorem Step.image_eq (hfit : bs.Fits) (hstep : Step s button t) :
    image t.out.outBuffer =
      WriteLog.apply (image s.out.outBuffer) (writes bs (outputCalls t.tracks)) := by
  obtain ⟨out, hout, himage⟩ := exists_setBuffers hfit
    { s.out with log := s.out.log ++ [s.moveLine t.currentTrack] } (outputCalls t.tracks)
  rw [← Except.ok.inj (hout.symm.trans hstep.out_eq)]
  exact himage

/-- **After a pass the buffer is a function of the table.** -/
theorem Step.image_eq_render (hfit : bs.Fits) (hstep : Step s button t) (hs : s.Fresh) :
    image t.out.outBuffer = render bs t.tracks := by
  rw [hstep.image_eq hfit]
  refine WriteLog.apply_eq_of_forall_notMem fun cell hcell => hs cell fun w hw he => ?_
  obtain ⟨call, hcall, rfl⟩ := List.mem_map.mp hw
  obtain ⟨hcall, haccepted⟩ := List.mem_filter.mp hcall
  obtain ⟨call', hcall', hpos⟩ :=
    List.mem_map.mp (hstep.mem_outputCalls (List.mem_map_of_mem hcall))
  refine hcell (address bs call'.1, call'.2) ?_ (by rw [← he, hpos])
  exact List.mem_map_of_mem (List.mem_filter.mpr ⟨hcall', by rw [hpos]; exact haccepted⟩)

theorem Sim.fresh_of_image_eq_render (h : image s.out.outBuffer = render bs s.tracks) :
    s.Fresh := by
  intro cell hcell
  rw [h, render, WriteLog.apply_of_notMem _ hcell]

theorem Sim.fresh_of_zero (h : image s.out.outBuffer = fun _ => false) : s.Fresh := fun _ _ => by
  rw [h]

/-- A run keeps the bits that are not written `0`. -/
theorem fresh_of_simulate (hfit : bs.Fits) (h : s.Routed) (hs : s.Fresh) {readings : List Bool}
    (hrun : simulate s readings = .ok t) : t.Fresh :=
  (simulate_invariant Sim.Fresh
    (fun hstep hu => Sim.fresh_of_image_eq_render (hstep.image_eq_render hfit hu)) h hs hrun).2

theorem SameTable.positions_eq {v w : Vector Track n} (h : SameTable v w) (i : Fin n) :
    (v.get i).positions = (w.get i).positions := by
  have hpiece : ∀ q : Piece, q.constructed.positions = q.positions := fun q => by cases q <;> rfl
  rw [Track.positions, Track.positions, h.powerPos_eq, ← hpiece, h.piece_eq, hpiece]

theorem Wired.of_sameTable {v w : Vector Track n} (hv : Wired bs v) (h : SameTable v w) :
    Wired bs w := by
  have hlist : v.toList.map Track.positions = w.toList.map Track.positions := by
    refine List.ext_getElem (by simp) fun i hi _ => ?_
    have hi' : i < n := by simpa using hi
    simp only [List.getElem_map, Vector.getElem_toList]
    exact h.positions_eq ⟨i, hi'⟩
  have hpos : positions v = positions w := by
    rw [positions, positions, List.flatMap_def, List.flatMap_def, hlist]
  exact ⟨hpos ▸ hv.accepted, hpos ▸ hv.nodup⟩

/-- After at least one pass of a run from a zero buffer, the last pass being that from `s` to `t`,
the buffer is that of the table. -/
theorem image_eq_render (hfit : bs.Fits) {s₀ : Sim bs n} (h : s₀.Routed)
    (hzero : s₀.out.outBuffer = Vector.replicate _ 0) {readings : List Bool} (hne : readings ≠ [])
    (hrun : simulate s₀ readings = .ok t) : image t.out.outBuffer = render bs t.tracks := by
  obtain rfl | ⟨before, button, rfl⟩ := List.eq_nil_or_concat' readings
  · exact absurd rfl hne
  obtain ⟨s, hs, hit⟩ := Machine.run_concat_eq_ok.mp hrun
  have hfresh : s₀.Fresh := Sim.fresh_of_zero (by rw [hzero, image_replicate_zero])
  exact (step_of_iteration (routed_of_simulate h hs) hit).image_eq_render hfit
    (fresh_of_simulate hfit h hfresh hs)

/-! ### Reading the buffer back -/

/-- The buffer encodes the powers and the switch states, and nothing else. -/
structure Sim.Encoded (s : Sim bs n) : Prop where
  power : ∀ i : Fin n,
    s.out.bit (s.tracks.get i).powerPos = .ok (decide ((s.tracks.get i).powerstate = .on))
  switch : ∀ (i : Fin n) (q : SwitchTrack), (s.tracks.get i).piece = .switchTrack q →
    s.out.bit q.straight = .ok (decide (q.state = .straight)) ∧
      s.out.bit q.curved = .ok (decide (q.state = .curved))
  other : ∀ cell, (∀ p ∈ positions s.tracks, bitAddress bs p ≠ .ok cell) →
    image s.out.outBuffer cell = false

/-- The state of the output `pos` in the buffer. -/
def decodeBit (bs : BoardTable) (buffer : Vector Byte (calculateBufferSize bs).toNat)
    (pos : IoPosition) : Bool :=
  match bitAddress bs pos with
  | .error _ => false
  | .ok cell => image buffer cell

/-- The state of a switch with the outputs `straight` and `curved` in the buffer. -/
def decodeState (bs : BoardTable) (buffer : Vector Byte (calculateBufferSize bs).toNat)
    (straight curved : IoPosition) : SwitchState :=
  if decodeBit bs buffer straight then .straight
  else if decodeBit bs buffer curved then .curved
  else .unknown

/-- The track with its power and its switch state as the buffer says. -/
def Track.decode (bs : BoardTable) (buffer : Vector Byte (calculateBufferSize bs).toNat)
    (t : Track) : Track :=
  { t with
    powerstate := if decodeBit bs buffer t.powerPos then .on else .off
    piece :=
      match t.piece with
      | .straight q => .straight q
      | .switchTrack q =>
        .switchTrack { q with state := decodeState bs buffer q.straight q.curved } }

theorem decodeBit_of_bit {out : Output bs} {pos : IoPosition} {b : Bool}
    (h : out.bit pos = .ok b) : decodeBit bs out.outBuffer pos = b := by
  rw [Output.bit] at h
  rw [decodeBit]
  cases haddr : bitAddress bs pos with
  | error e => rw [haddr] at h; cases h
  | ok cell => rw [haddr] at h; exact Except.ok.inj h

/-- An encoded table can be read back from the buffer. -/
theorem Sim.Encoded.decode_eq (h : s.Encoded) {u : Vector Track n} (hu : SameTable u s.tracks)
    (i : Fin n) : (u.get i).constructed.decode bs s.out.outBuffer = s.tracks.get i := by
  have hpower := decodeBit_of_bit (h.power i)
  rw [hu i]
  cases ht : s.tracks.get i with
  | mk id powerPos powerstate piece =>
    rw [ht] at hpower
    simp only [Track.constructed, Track.decode, hpower]
    cases piece with
    | straight q => cases powerstate <;> rfl
    | switchTrack q =>
      obtain ⟨hstraight, hcurved⟩ := h.switch i q (by rw [ht])
      have hstate : decodeState bs s.out.outBuffer q.straight q.curved = q.state := by
        rw [decodeState, decodeBit_of_bit hstraight, decodeBit_of_bit hcurved]
        cases q.state <;> rfl
      simp only [Piece.constructed, hstate]
      cases powerstate <;> rfl

/-- The bit of an output in a buffer that is that of the table. -/
theorem Wired.bit_of_mem (hfit : bs.Fits) (h : Wired bs t.tracks)
    (himage : image t.out.outBuffer = render bs t.tracks) {pos : IoPosition} {b : Bool}
    (hcall : (pos, b) ∈ assignments t.tracks) : t.out.bit pos = .ok b := by
  rw [Output.bit_eq hfit (h.accepted_of_mem hcall), himage, h.render_of_mem hcall]

theorem Wired.encoded (hfit : bs.Fits) (h : Wired bs t.tracks)
    (himage : image t.out.outBuffer = render bs t.tracks) : t.Encoded where
  power i := h.bit_of_mem hfit himage (mem_flatMap_tracks.mpr ⟨i, List.mem_cons_self⟩)
  switch i q hq := by
    have hmem : ∀ call ∈ Piece.assignments (.switchTrack q), call ∈ assignments t.tracks :=
      fun call hcall => mem_flatMap_tracks.mpr ⟨i, List.mem_cons_of_mem _ (hq ▸ hcall)⟩
    exact ⟨h.bit_of_mem hfit himage (hmem _ List.mem_cons_self),
      h.bit_of_mem hfit himage (hmem _ (List.mem_cons_of_mem _ List.mem_cons_self))⟩
  other cell hcell := by
    rw [himage]
    refine h.render_of_notMem fun p hp he => hcell p hp ?_
    rw [bitAddress_eq hfit (h.accepted p hp), he]

/-- After at least one pass of a run from a zero buffer the state is encoded. -/
theorem encoded_of_simulate (hfit : bs.Fits) {s₀ : Sim bs n} (h : s₀.Routed)
    (hwired : Wired bs s₀.tracks) (hzero : s₀.out.outBuffer = Vector.replicate _ 0)
    {readings : List Bool} (hne : readings ≠ []) (hrun : simulate s₀ readings = .ok t) :
    t.Encoded :=
  (hwired.of_sameTable (sameTable_of_simulate h hrun)).encoded hfit
    (image_eq_render hfit h hzero hne hrun)

/-- **The output buffer encodes the table.** Take a board table whose total size fits in a `size_t`,
a well-formed track table with accepted and distinct positions, a connected start pair and a zero
buffer. After each run of at least one pass the bit of a power position says whether the track has
power, the two bits of a switch say which known state it is in, and every other bit is `0`. Hence
the present table can be read back from the constructed one and the buffer. -/
theorem outBuffer_encodes_state (hfit : bs.Fits) (s₀ : Sim bs n) (hwf : WellFormed s₀.tracks)
    (hwired : Wired bs s₀.tracks) (hconn : s₀.Connected)
    (hzero : s₀.out.outBuffer = Vector.replicate _ 0) (readings : List Bool)
    (hne : readings ≠ []) :
    ∃ s, simulate s₀ readings = .ok s ∧ s.Encoded ∧
      ∀ i : Fin n, (s₀.tracks.get i).constructed.decode bs s.out.outBuffer = s.tracks.get i := by
  obtain ⟨s, hrun, -⟩ := exists_simulate hfit ⟨hwf, hconn⟩ readings
  have hencoded := encoded_of_simulate hfit ⟨hwf, hconn⟩ hwired hzero hne hrun
  exact ⟨s, hrun, hencoded, hencoded.decode_eq (sameTable_of_simulate ⟨hwf, hconn⟩ hrun)⟩

theorem wired_tracks : Wired boards tracks where
  accepted := by decide
  nodup := by decide

/-- The firmware, with the button pressed in the second of three passes. -/
theorem outBuffer_encodes_state_layout :
    ∃ s, simulate Sim.initial [false, true, false] = .ok s ∧ s.Encoded ∧
      ∀ i : Fin 22, (Sim.initial.tracks.get i).constructed.decode boards s.out.outBuffer =
        s.tracks.get i :=
  outBuffer_encodes_state boards_fits Sim.initial wellFormed_tracks wired_tracks (by decide) rfl
    [false, true, false] (by decide)

/-- Three boards whose sizes add up to `2 ^ 32 + 1`, so that the code computes the size `1` and puts
the first and the last board at the same byte. -/
def overlapBoards : BoardTable where
  toList := [⟨0, 1⟩, ⟨0, 2147483648⟩, ⟨0, 2147483648⟩]
  length_lt := by decide

/-- Two dead ends on the first and the last of these boards. -/
def overlapStart : Sim overlapBoards 2 where
  tracks := #v[.makeStraight 0 ⟨0, 0⟩ 1 1, .makeStraight 1 ⟨2, 0⟩ 0 0]
  lastTrack := 0
  currentTrack := 1
  out := Output.initial overlapBoards

/-- Where the sizes of the boards do not fit in a `size_t`, the bits of two positions may coincide,
and the output loop switches off the track with power. -/
theorem not_encoded_of_overlap :
    ¬ ∀ (bs : BoardTable) (n : ℕ) (s₀ : Sim bs n), WellFormed s₀.tracks → Wired bs s₀.tracks →
      s₀.Connected → s₀.out.outBuffer = Vector.replicate _ 0 →
      (∀ i : Fin n, (s₀.tracks.get i).piece = (s₀.tracks.get i).piece.constructed) →
      ∀ readings, readings ≠ [] → ∃ s, simulate s₀ readings = .ok s ∧ s.Encoded := by
  intro h
  obtain ⟨s, hrun, hencoded⟩ := h overlapBoards 2 overlapStart
    ⟨by decide, by decide, by decide⟩ ⟨by decide, by decide⟩ (by decide) rfl (by decide)
    [false] (by decide)
  have hbit : (simulate overlapStart [false]).map (fun s =>
      (s.out.bit (s.tracks.get 0).powerPos, (s.tracks.get 0).powerstate)) =
        .ok (.ok false, .on) := by
    decide
  rw [hrun] at hbit
  obtain ⟨hoff, hon⟩ := Prod.mk.inj (Except.ok.inj hbit)
  have hpower := hencoded.power 0
  rw [hoff, hon] at hpower
  cases hpower

/-! ### One powered section -/

/-- Only the current track may have power. -/
def Sim.Exclusive (s : Sim bs n) : Prop :=
  ∀ i : Fin n, (s.tracks.get i).powerstate = .on → i = s.currentTrack

theorem Sim.exclusive_of_off (h : ∀ i : Fin n, (s.tracks.get i).powerstate = .off) : s.Exclusive :=
  fun i hon => by rw [h i] at hon; cases hon

/-- **A pass gives the power to the track it enters and to no other one.** -/
theorem Step.on_iff (hstep : Step s button t) (hs : s.Exclusive) (i : Fin n) :
    (t.tracks.get i).powerstate = .on ↔ i = t.currentTrack := by
  rw [hstep.powerstate_eq]
  split_ifs with hentered hleft
  · exact iff_of_true rfl hentered
  · exact iff_of_false (by decide) hentered
  · exact iff_of_false (fun hon => hleft (hs i hon)) hentered

theorem exclusive_of_simulate (h : s.Routed) (hs : s.Exclusive) {readings : List Bool}
    (hrun : simulate s readings = .ok t) : t.Exclusive :=
  (simulate_invariant Sim.Exclusive (fun hstep hu i => (hstep.on_iff hu i).mp) h hs hrun).2

/-- **One powered section.** From a well-formed table with accepted and distinct positions, a
connected start pair, no power and a zero buffer: at the boundary after each pass exactly the
current track has power, exactly its bit among those of the power positions is set, and the pass has
changed the power of no track but those left and entered and the state of no switch but the one
left. -/
theorem one_powered_section (hfit : bs.Fits) (s₀ : Sim bs n) (hwf : WellFormed s₀.tracks)
    (hwired : Wired bs s₀.tracks) (hconn : s₀.Connected)
    (hoff : ∀ i : Fin n, (s₀.tracks.get i).powerstate = .off)
    (hzero : s₀.out.outBuffer = Vector.replicate _ 0) (readings : List Bool) (button : Bool) :
    ∃ s t, simulate s₀ readings = .ok s ∧ iteration s button = .ok t ∧
      (∀ i : Fin n, (t.tracks.get i).powerstate = .on ↔ i = t.currentTrack) ∧
      (∀ i : Fin n, t.out.bit (t.tracks.get i).powerPos = .ok (decide (i = t.currentTrack))) ∧
      (∀ i : Fin n, i ≠ s.currentTrack → i ≠ t.currentTrack →
        (t.tracks.get i).powerstate = (s.tracks.get i).powerstate) ∧
      ∀ i : Fin n, i ≠ s.currentTrack → (t.tracks.get i).piece = (s.tracks.get i).piece := by
  have h : s₀.Routed := ⟨hwf, hconn⟩
  obtain ⟨s, hrun, hs⟩ := exists_simulate hfit h readings
  obtain ⟨t, hit, hstep⟩ := exists_iteration hfit hs button
  have hexclusive : s.Exclusive := exclusive_of_simulate h (Sim.exclusive_of_off hoff) hrun
  have hencoded : t.Encoded := encoded_of_simulate hfit h hwired hzero (by simp)
    (Machine.run_concat_eq_ok.mpr ⟨s, hrun, hit⟩)
  refine ⟨s, t, hrun, hit, hstep.on_iff hexclusive, fun i => ?_, fun i hleft hentered => ?_,
    fun i hleft => ?_⟩
  · rw [hencoded.power i, decide_eq_decide.mpr (hstep.on_iff hexclusive i)]
  · rw [hstep.powerstate_eq, if_neg hentered, if_neg hleft]
  · rw [hstep.piece_eq, if_neg hleft]

theorem off_initial : ∀ i : Fin 22, (Sim.initial.tracks.get i).powerstate = .off := by decide

/-- The firmware, in its third pass. -/
theorem one_powered_section_layout :
    ∃ s t, simulate Sim.initial [true, false] = .ok s ∧ iteration s true = .ok t ∧
      (∀ i : Fin 22, (t.tracks.get i).powerstate = .on ↔ i = t.currentTrack) ∧
      (∀ i : Fin 22, t.out.bit (t.tracks.get i).powerPos = .ok (decide (i = t.currentTrack))) ∧
      (∀ i : Fin 22, i ≠ s.currentTrack → i ≠ t.currentTrack →
        (t.tracks.get i).powerstate = (s.tracks.get i).powerstate) ∧
      ∀ i : Fin 22, i ≠ s.currentTrack → (t.tracks.get i).piece = (s.tracks.get i).piece :=
  one_powered_section boards_fits Sim.initial wellFormed_tracks wired_tracks (by decide) off_initial
    rfl [true, false] true

end Modellbahn
