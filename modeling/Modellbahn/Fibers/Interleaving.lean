import Modellbahn.Simulation.OutputImage

/-!
# The two fibers

The fiber of the controller sends `out_buffer` again and again: it pulls CS low, has the DMA read
the buffer byte by byte from the live memory, and pulls CS high. While the DMA reads, that fiber
yields, so that the simulation fiber may run; and the DMA reads on while the simulation fiber is at
work. The scheduler is cooperative: the simulation fiber runs from its wake-up to its next sleep,
and the controller moves CS only while the simulation fiber sleeps.

`System.step` makes one event of this system. A pass of the simulation is split into its wake-up,
which computes the new table, and the single calls of `set_buffer`. The durations of the sleeps are
left out, so that every interleaving of the two fibers and the DMA is a list of events.

## Main definitions

* `Modellbahn.System`, `Modellbahn.Event`, `Modellbahn.System.step`.
* `Modellbahn.Progress`: how far the system has got since a boundary.
* `Modellbahn.Transmits`: a frame sent between a falling and the next rising edge of CS.

## Main results

* `Modellbahn.System.effect_of_step`: what an event does.
* `Modellbahn.System.boundary_of_run`: the system refines the simulation loop.
* `Modellbahn.System.exists_run_of_simulate`: it makes every run of the loop.
* `Modellbahn.System.run_ne_stopped`: it never stops.
* `Modellbahn.Progress.bit_eq`: the live buffer between two boundaries.
-/

namespace Modellbahn

open PackedBits

/-- The state of both fibers. Between two sleeps of the simulation fiber `sim` is its state and
`pending` lists the calls of `set_buffer` to come; while it sleeps, `pending` is empty. -/
structure System (bs : BoardTable) (n : ℕ) where
  sim : Sim bs n
  pending : List (IoPosition × Bool)
  /-- The bytes sent since CS went low, or `none` while CS is high. -/
  frame : Option (List Byte)
  /-- The last complete frame. -/
  sent : Option (List Byte)
  deriving DecidableEq

/-- An event of the system. -/
inductive Event
  /-- `CS::reset()` -/
  | csLow
  /-- The DMA reads the next byte of `out_buffer`. -/
  | byte
  /-- `CS::set()` after the last byte -/
  | csHigh
  /-- The simulation fiber wakes up and makes a pass up to its output loop. -/
  | wake (button : Bool)
  /-- The next call of `set_buffer` of the output loop. -/
  | write
  deriving DecidableEq, Repr

/-- Why an event does not take place. -/
inductive Refusal
  /-- It is not the turn of this event. -/
  | notReady
  /-- The computation of the event has no result. -/
  | stopped (e : Stop)
  deriving DecidableEq, Repr

/-- The readings of the button in a list of events. -/
def readings (events : List Event) : List Bool :=
  events.filterMap fun
    | .wake button => some button
    | _ => none

@[simp] theorem readings_append (es fs : List Event) :
    readings (es ++ fs) = readings es ++ readings fs :=
  List.filterMap_append

variable {bs : BoardTable} {n : ℕ}

namespace System

/-- The system with the simulation asleep in the state `s`, and CS high. -/
def start (s : Sim bs n) : System bs n where
  sim := s
  pending := []
  frame := none
  sent := none

/-- One event. -/
def step (c : System bs n) : Event → Except Refusal (System bs n)
  | .csLow =>
    if c.frame = none ∧ c.pending = [] then .ok { c with frame := some [] } else .error .notReady
  | .byte =>
    match c.frame with
    | none => .error .notReady
    | some bytes =>
      if h : bytes.length < (calculateBufferSize bs).toNat then
        .ok { c with frame := some (bytes ++ [c.sim.out.outBuffer[bytes.length]]) }
      else .error .notReady
  | .csHigh =>
    match c.frame with
    | none => .error .notReady
    | some bytes =>
      if bytes.length = (calculateBufferSize bs).toNat ∧ c.pending = [] then
        .ok { c with frame := none, sent := some bytes }
      else .error .notReady
  | .wake button =>
    if c.pending = [] then
      match advance c.sim button with
      | .error e => .error (.stopped e)
      | .ok s => .ok { c with sim := s, pending := outputCalls s.tracks }
    else .error .notReady
  | .write =>
    match c.pending with
    | [] => .error .notReady
    | call :: calls =>
      match setBuffer c.sim.out call.1 call.2 with
      | .error e => .error (.stopped e)
      | .ok out => .ok { c with sim := { c.sim with out := out }, pending := calls }

/-- The state after a list of events. -/
def run (c : System bs n) (events : List Event) : Except Refusal (System bs n) :=
  Machine.run step c events

/-- What an event does. -/
inductive Effect (c : System bs n) : Event → System bs n → Prop
  | csLow (hframe : c.frame = none) (hpending : c.pending = []) :
    Effect c .csLow { c with frame := some [] }
  | byte {bytes : List Byte} (hframe : c.frame = some bytes)
    (hlt : bytes.length < (calculateBufferSize bs).toNat) :
    Effect c .byte { c with frame := some (bytes ++ [c.sim.out.outBuffer[bytes.length]]) }
  | csHigh {bytes : List Byte} (hframe : c.frame = some bytes)
    (hlength : bytes.length = (calculateBufferSize bs).toNat) (hpending : c.pending = []) :
    Effect c .csHigh { c with frame := none, sent := some bytes }
  | wake {button : Bool} {s : Sim bs n} (hpending : c.pending = [])
    (hadvance : advance c.sim button = .ok s) :
    Effect c (.wake button) { c with sim := s, pending := outputCalls s.tracks }
  | write {call : IoPosition × Bool} {calls : List (IoPosition × Bool)} {out : Output bs}
    (hpending : c.pending = call :: calls) (hset : setBuffer c.sim.out call.1 call.2 = .ok out) :
    Effect c .write { c with sim := { c.sim with out := out }, pending := calls }

variable {c d : System bs n} {e : Event}

theorem effect_of_step (h : c.step e = .ok d) : Effect c e d := by
  cases e with
  | csLow =>
    simp only [step] at h
    split_ifs at h with hc
    cases h
    exact .csLow hc.1 hc.2
  | byte =>
    simp only [step] at h
    split at h
    · cases h
    · next bytes hframe =>
      split_ifs at h with hlt
      cases h
      exact .byte hframe hlt
  | csHigh =>
    simp only [step] at h
    split at h
    · cases h
    · next bytes hframe =>
      split_ifs at h with hc
      cases h
      exact .csHigh hframe hc.1 hc.2
  | wake button =>
    simp only [step] at h
    split_ifs at h with hpending
    split at h
    · cases h
    · next s hadvance =>
      cases h
      exact .wake hpending hadvance
  | write =>
    simp only [step] at h
    split at h
    · cases h
    · next call calls hpending =>
      split at h
      · cases h
      · next out hset =>
        cases h
        exact .write hpending hset

/-! ### Refinement of the simulation loop -/

/-- The boundary of the simulation loop that the system has reached, or that it reaches with the
pending calls. -/
def boundary (c : System bs n) : Except Stop (Sim bs n) :=
  (setBuffers c.sim.out c.pending).map fun out => { c.sim with out := out }

theorem boundary_of_asleep (h : c.pending = []) : c.boundary = .ok c.sim := by
  rw [boundary, h]
  rfl

@[simp] theorem boundary_start (s : Sim bs n) : (start s).boundary = .ok s := rfl

/-- **An event is a pass of the loop or no pass.** -/
theorem boundary_of_effect (h : Effect c e d) {s : Sim bs n} (hc : c.boundary = .ok s) :
    d.boundary = simulate s (readings [e]) := by
  cases h with
  | csLow => exact hc
  | byte => exact hc
  | csHigh => exact hc
  | @wake button t hpending hadvance =>
    rw [boundary_of_asleep hpending] at hc
    cases hc
    change _ = simulate c.sim [button]
    rw [simulate, Machine.run_singleton, iteration, hadvance]
    rfl
  | write hpending hset =>
    rw [boundary, hpending, setBuffers, Machine.run_cons_of_ok hset] at hc
    exact hc

/-- **The system refines the simulation loop.** Whatever the interleaving, a list of events from a
routed boundary leads to a boundary of the loop, up to the pending calls. -/
theorem boundary_of_run (hfit : bs.Fits) {s : Sim bs n} (hs : s.Routed) {events : List Event}
    (hc : c.boundary = .ok s) (hrun : c.run events = .ok d) :
    ∃ t, simulate s (readings events) = .ok t ∧ d.boundary = .ok t := by
  induction events using List.reverseRecOn generalizing d with
  | nil => cases hrun; exact ⟨s, rfl, hc⟩
  | append_singleton events e ih =>
    obtain ⟨b, hb, hstep⟩ := Machine.run_concat_eq_ok.mp hrun
    obtain ⟨u, hu, hbu⟩ := ih hb
    obtain ⟨t, ht, -⟩ := exists_simulate hfit (routed_of_simulate hs hu) (readings [e])
    refine ⟨t, ?_, (boundary_of_effect (effect_of_step hstep) hbu).trans ht⟩
    rw [readings_append]
    exact Machine.run_append_eq_ok.mpr ⟨u, hu, ht⟩

/-- The calls to come, made one after the other. -/
theorem run_writes {out : Output bs} (hset : setBuffers c.sim.out c.pending = .ok out) :
    c.run (List.replicate c.pending.length .write) =
      .ok { c with sim := { c.sim with out := out }, pending := [] } := by
  obtain ⟨sim, pending, frame, sent⟩ := c
  induction pending generalizing sim with
  | nil =>
    obtain rfl : sim.out = out := Except.ok.inj hset
    rfl
  | cons call calls ih =>
    obtain ⟨out₁, hcall, hcalls⟩ := Machine.run_cons_eq_ok.mp hset
    have hstep : System.step ⟨sim, call :: calls, frame, sent⟩ .write =
        .ok ⟨{ sim with out := out₁ }, calls, frame, sent⟩ := by
      simp only [step, hcall]
    exact (Machine.run_cons_of_ok hstep _).trans (ih _ hcalls)

theorem exists_run_of_iteration {s t : Sim bs n} {button : Bool}
    (hit : iteration s button = .ok t) :
    ∃ k, (start s).run (.wake button :: List.replicate k .write) = .ok (start t) := by
  rw [iteration] at hit
  cases hadvance : advance s button with
  | error e => rw [hadvance] at hit; cases hit
  | ok u =>
    rw [hadvance] at hit
    cases hset : setBuffers u.out (outputCalls u.tracks) with
    | error e => simp only [hset] at hit; cases hit
    | ok out =>
      simp only [hset] at hit
      cases hit
      have hstep : (start s).step (.wake button) =
          .ok { start s with sim := u, pending := outputCalls u.tracks } := by
        simp only [step, start, hadvance, if_true]
      exact ⟨_, (Machine.run_cons_of_ok hstep _).trans (run_writes hset)⟩

/-- **The system makes every run of the loop.** -/
theorem exists_run_of_simulate {s t : Sim bs n} {rs : List Bool} (hrun : simulate s rs = .ok t) :
    ∃ events, readings events = rs ∧ (start s).run events = .ok (start t) := by
  induction rs generalizing s with
  | nil =>
    cases hrun
    exact ⟨[], rfl, rfl⟩
  | cons button rs ih =>
    obtain ⟨u, hit, hrest⟩ := Machine.run_cons_eq_ok.mp hrun
    obtain ⟨k, hk⟩ := exists_run_of_iteration hit
    obtain ⟨events, hevents, hrun'⟩ := ih hrest
    have hwrites : readings (.wake button :: List.replicate k .write) = [button] := by
      simp [readings]
    have hall : (start s).run (.wake button :: List.replicate k .write ++ events) = .ok (start t) :=
      Machine.run_append_eq_ok.mpr ⟨start u, hk, hrun'⟩
    refine ⟨_, ?_, hall⟩
    rw [readings_append, hwrites, hevents]
    rfl

/-- **No fiber stops.** From a routed boundary on, an event either takes place or is not ready. -/
theorem step_ne_stopped {s : Sim bs n} (hs : s.Routed) (hc : c.boundary = .ok s)
    (e : Event) (stop : Stop) : c.step e ≠ .error (.stopped stop) := by
  cases e with
  | csLow => simp only [step]; split_ifs <;> simp
  | byte => simp only [step]; split <;> (try split_ifs) <;> simp
  | csHigh => simp only [step]; split <;> (try split_ifs) <;> simp
  | wake button =>
    simp only [step]
    split_ifs with hpending
    · rw [boundary_of_asleep hpending] at hc
      cases hc
      obtain ⟨next, hnext, -⟩ := hs.exists_next button
      rw [hs.advance_eq hnext]
      simp
    · simp
  | write =>
    simp only [step]
    cases hpending : c.pending with
    | nil => simp
    | cons call calls =>
      rw [boundary, hpending, setBuffers, Machine.run_cons] at hc
      cases hset : setBuffer c.sim.out call.1 call.2 with
      | error e => rw [hset] at hc; cases hc
      | ok out => simp only [hset]; simp

theorem run_ne_stopped (hfit : bs.Fits) {s : Sim bs n} (hs : s.Routed) (events : List Event)
    (stop : Stop) : (start s).run events ≠ .error (.stopped stop) := by
  induction events using List.reverseRecOn with
  | nil => exact fun h => (by cases h)
  | append_singleton events e ih =>
    intro h
    rcases Machine.run_concat_eq_error.mp h with hfirst | ⟨c, hc, hlast⟩
    · exact ih hfirst
    · obtain ⟨t, ht, hbt⟩ := boundary_of_run hfit hs (boundary_start s) hc
      exact step_ne_stopped (routed_of_simulate hs ht) hbt e stop hlast

end System

/-! ### The live buffer between two boundaries -/

/-- After events with the readings `rs` from the boundary `s` the system is at the boundary with the
number `i` or on the way from it to the next one, which is the last one. -/
structure Progress (s : Sim bs n) (rs : List Bool) (i : ℕ) (c : System bs n) : Prop where
  le_length : i ≤ rs.length
  length_le : rs.length ≤ i + 1
  behind : ∃ u, simulate s (rs.take i) = .ok u ∧
    WriteLog.UnderWay (image u.out.outBuffer) (image c.sim.out.outBuffer) (writes bs c.pending)
  ahead : ∃ t, simulate s rs = .ok t ∧ c.boundary = .ok t

/-- Everything up to the output loop leaves the buffer alone and the table as constructed. -/
theorem advance_spec {s t : Sim bs n} {button : Bool} (h : s.Routed)
    (hadvance : advance s button = .ok t) :
    t.out.outBuffer = s.out.outBuffer ∧ SameTable s.tracks t.tracks := by
  obtain ⟨next, hnext, -⟩ := h.exists_next button
  rw [h.advance_eq hnext] at hadvance
  cases hadvance
  exact ⟨rfl, (s.sameTable_makeWay (s.select button)).trans (Sim.sameTable_moveTo _ next)⟩

theorem Wired.nodup_writes_outputCalls {tracks : Vector Track n} (h : Wired bs tracks) :
    ((writes bs (outputCalls tracks)).map Prod.fst).Nodup :=
  h.nodup_writes.sublist ((((outputCalls_sublist tracks).filter _).map _).map _)

namespace Progress

variable {s : Sim bs n} {rs : List Bool} {i : ℕ} {c d : System bs n} {e : Event}

/-- While the simulation fiber sleeps, the system is at a boundary. -/
theorem start (hpending : c.pending = []) : Progress c.sim [] 0 c where
  le_length := le_rfl
  length_le := Nat.zero_le _
  behind := ⟨c.sim, rfl, by rw [hpending]; exact .start _ List.nodup_nil⟩
  ahead := ⟨c.sim, rfl, System.boundary_of_asleep hpending⟩

/-- **A bit of the live buffer** is that of one of the two boundaries around it. -/
theorem bit_eq (hfit : bs.Fits) (h : Progress s rs i c) (cell : ℕ × ℕ) :
    ∃ k t, (k = i ∨ k = i + 1) ∧ k ≤ rs.length ∧ simulate s (rs.take k) = .ok t ∧
      image c.sim.out.outBuffer cell = image t.out.outBuffer cell := by
  obtain ⟨u, hu, hunderWay⟩ := h.behind
  obtain ⟨t, ht, hboundary⟩ := h.ahead
  rcases hunderWay.eq_or_eq cell with heq | heq
  · exact ⟨i, u, Or.inl rfl, h.le_length, hu, heq⟩
  · refine ⟨rs.length, t, ?_, le_rfl, by rwa [List.take_length], ?_⟩
    · have := h.le_length
      have := h.length_le
      omega
    · obtain ⟨out, hout, himage⟩ := exists_setBuffers hfit c.sim.out c.pending
      rw [System.boundary, hout] at hboundary
      cases hboundary
      rw [himage]
      exact heq

/-- **One event** keeps the place or leaves the boundary for the next one. -/
theorem step (hfit : bs.Fits) (hs : s.Routed) (hwired : Wired bs s.tracks)
    (h : Progress s rs i c) (heffect : System.Effect c e d) :
    ∃ j, i ≤ j ∧ Progress s (rs ++ readings [e]) j d := by
  obtain ⟨t, ht, hboundary⟩ := h.ahead
  have hahead : ∃ v, simulate s (rs ++ readings [e]) = .ok v ∧ d.boundary = .ok v := by
    obtain ⟨v, hv, -⟩ := exists_simulate hfit (routed_of_simulate hs ht) (readings [e])
    exact ⟨v, Machine.run_append_eq_ok.mpr ⟨t, ht, hv⟩,
      (System.boundary_of_effect heffect hboundary).trans hv⟩
  -- every event but a wake-up has no reading and keeps the place
  have hkeep : readings [e] = [] → ∀ u, simulate s (rs.take i) = .ok u →
      WriteLog.UnderWay (image u.out.outBuffer) (image d.sim.out.outBuffer) (writes bs d.pending) →
      ∃ j, i ≤ j ∧ Progress s (rs ++ readings [e]) j d := by
    intro hreadings u hu hunderWay
    refine ⟨i, le_rfl, ?_, ?_, ?_, hahead⟩
    · simpa [hreadings] using h.le_length
    · simpa [hreadings] using h.length_le
    · exact ⟨u, by rw [hreadings, List.append_nil]; exact hu, hunderWay⟩
  obtain ⟨u, hu, hunderWay⟩ := h.behind
  cases heffect with
  | csLow => exact hkeep rfl u hu hunderWay
  | byte => exact hkeep rfl u hu hunderWay
  | csHigh => exact hkeep rfl u hu hunderWay
  | write hpending hset =>
    refine hkeep rfl u hu ?_
    rw [hpending, writes_cons] at hunderWay
    rw [image_of_setBuffer hfit hset]
    exact hunderWay.advance
  | @wake button v hpending hadvance =>
    rw [System.boundary_of_asleep hpending] at hboundary
    cases hboundary
    obtain ⟨hbuffer, htable⟩ := advance_spec (routed_of_simulate hs ht) hadvance
    have hwired' := hwired.of_sameTable ((sameTable_of_simulate hs ht).trans htable)
    refine ⟨rs.length, h.le_length, by simp [readings], by simp [readings],
      ⟨c.sim, by simpa using ht, ?_⟩, hahead⟩
    rw [hbuffer]
    exact .start _ hwired'.nodup_writes_outputCalls

theorem of_run (hfit : bs.Fits) (hs : s.Routed) (hwired : Wired bs s.tracks) (hsim : c.sim = s)
    (hpending : c.pending = []) {events : List Event} (hrun : c.run events = .ok d) :
    ∃ i, Progress s (readings events) i d := by
  induction events using List.reverseRecOn generalizing d with
  | nil =>
    cases hrun
    subst hsim
    exact ⟨0, .start hpending⟩
  | append_singleton events e ih =>
    obtain ⟨b, hb, hstep⟩ := Machine.run_concat_eq_ok.mp hrun
    obtain ⟨i, hi⟩ := ih hb
    obtain ⟨j, -, hj⟩ := hi.step hfit hs hwired (System.effect_of_step hstep)
    rw [readings_append]
    exact ⟨j, hj⟩

end Progress

/-! ### Frames -/

/-- From the boundary `s` the events `before` lead to a falling edge of CS, and the events `during`
on to the next rising edge, between which the frame `bytes` is sent. -/
structure Transmits (s : Sim bs n) (before during : List Event) (bytes : List Byte) : Prop where
  csLow_notMem : .csLow ∉ during
  csHigh_notMem : .csHigh ∉ during
  sent_eq : ((System.start s).run (before ++ .csLow :: during ++ [.csHigh])).map System.sent =
    .ok (some bytes)

instance (s : Sim bs n) (before during : List Event) (bytes : List Byte) :
    Decidable (Transmits s before during bytes) :=
  decidable_of_iff (.csLow ∉ during ∧ .csHigh ∉ during ∧
      ((System.start s).run (before ++ .csLow :: during ++ [.csHigh])).map System.sent =
        .ok (some bytes))
    ⟨fun h => ⟨h.1, h.2.1, h.2.2⟩, fun h => ⟨h.1, h.2, h.3⟩⟩

end Modellbahn
