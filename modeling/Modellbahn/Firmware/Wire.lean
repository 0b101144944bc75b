import Modellbahn.Firmware.Fibers
import Modellbahn.Fibers.Frames

/-!
# The frames of the firmware

The system of the two fibers and the DMA leaves the scheduler, the clock and the flags of the DMA
out, and takes from them that CS is moved while the simulation fiber sleeps, and that it rises
when all bytes are read. Here both are derived: the fibers on the scheduler with the loop of
`transfer` make events of that system, and what holds of its frames holds of theirs.

A transfer may also end because of an error of the DMA. Then CS rises after a part of the frame, and
the system makes the events without that transfer.

## Main definitions

* `Modellbahn.Firmware.toSystem`: the state of the system.
* `Modellbahn.Firmware.Transfer`: the flags and the bytes of a transfer.
* `Modellbahn.Firmware.Sound`: the invariant.

## Main results

* `Modellbahn.System.exists_run_erase`: the events without a transfer.
* `Modellbahn.Firmware.Sound.step`, `Modellbahn.Firmware.Sound.run`: events keep the invariant.
* `Modellbahn.firmware_refines_system`: the firmware makes events of the system.
* `Modellbahn.firmware_frames`: CS rises after a complete frame or an error.
-/

namespace Modellbahn

variable {bs : BoardTable} {n : ℕ}

/-! ### Events without a transfer -/

namespace System

/-- **A transfer is of no effect on the simulation.** The events between two edges of CS may be made
without the transfer. -/
theorem exists_run_erase {c d : System bs n} {during : List Event}
    (hrun : ({ c with frame := some [] } : System bs n).run during = .ok d) (hnone : c.frame = none)
    (hlow : .csLow ∉ during) (hhigh : .csHigh ∉ during) :
    ∃ events, readings events = readings during ∧
      c.run events = .ok { d with frame := none } := by
  refine Machine.run_history (motive := fun during d => .csLow ∉ during → .csHigh ∉ during →
    ∃ events, readings events = readings during ∧ c.run events = .ok { d with frame := none })
    ?_ (fun _ _ => ⟨[], rfl, by rw [← hnone]; rfl⟩) hrun hlow hhigh
  intro during d e t ih hstep hlow hhigh
  rw [List.mem_append, not_or, List.mem_singleton] at hlow hhigh
  obtain ⟨events, hreadings, hevents⟩ := ih hlow.1 hhigh.1
  cases effect_of_step hstep with
  | csLow => exact absurd rfl hlow.2
  | csHigh => exact absurd rfl hhigh.2
  | byte => exact ⟨events, by simpa [readings] using hreadings, hevents⟩
  | @wake button sim hpending hadvance =>
    refine ⟨events ++ [.wake button], by rw [readings_append, readings_append, hreadings], ?_⟩
    refine Machine.run_concat_eq_ok.mpr ⟨_, hevents, ?_⟩
    simp only [System.step, hpending, hadvance, if_true]
  | write hpending hset =>
    refine ⟨events ++ [.write], by rw [readings_append, readings_append, hreadings], ?_⟩
    refine Machine.run_concat_eq_ok.mpr ⟨_, hevents, ?_⟩
    simp only [System.step, hpending, hset]

end System

/-! ### The invariant -/

/-- The calls of `set_buffer` to come before the next sleep. -/
def SimulationPc.pending : SimulationPc → List (IoPosition × Bool)
  | .output calls => calls
  | _ => []

namespace Firmware

/-- The state of the two fibers and the DMA. -/
def toSystem (s : Firmware bs n) : System bs n where
  sim := s.sim
  pending := s.simulation.pending
  frame := s.frame
  sent := s.sent

/-- The flags and the bytes of a transfer. -/
structure Transfer (s : Firmware bs n) : Prop where
  frame_isSome : s.frame.isSome = true ↔ s.control = .poll ∨ s.control = .set
  length : ∀ bytes, s.frame = some bytes → bytes.length = s.spi.read
  shifted_le : s.spi.shifted ≤ s.spi.read
  read_le : s.spi.read ≤ (calculateBufferSize bs).toNat
  error : s.spi.dmaError = true → s.spi.txRunning = false
  transmitComplete : s.spi.dmaTransmitComplete = true → s.spi.read = (calculateBufferSize bs).toNat
  receiveComplete : s.spi.dmaReceiveComplete = true → s.spi.shifted = (calculateBufferSize bs).toNat
  /-- Outside of the loop of `transfer` the DMA does not read. -/
  idle : s.control ≠ .poll → s.spi.txRunning = true → s.spi.read = (calculateBufferSize bs).toNat
  /-- After the loop everything is shifted out, or there was an error. -/
  finished : s.control = .set →
    s.spi.dmaError = true ∨ s.spi.shifted = (calculateBufferSize bs).toNat

/-- The events that lead to the state in the system of the two fibers: while CS is low, those before
it fell and those since. -/
def Tracked (s₀ : Sim bs n) (s : Firmware bs n) : Prop :=
  match s.frame with
  | none => ∃ events, Modellbahn.readings events = s.readings ∧
      (System.start s₀).run events = .ok s.toSystem
  | some _ => ∃ before during, .csLow ∉ during ∧ .csHigh ∉ during ∧
      Modellbahn.readings (before ++ during) = s.readings ∧
      (System.start s₀).run (before ++ .csLow :: during) = .ok s.toSystem

/-- **The invariant** of the firmware that boots with the simulation at the boundary `s₀`. -/
structure Sound (s₀ : Sim bs n) (s : Firmware bs n) : Prop where
  turns : ∃ f rest, Turns s.scheduler f rest
  /-- The simulation fiber does not yield before the end of its output loop. -/
  writing : s.simulation.pending ≠ [] → s.scheduler.current = some .simulation
  alive : s.simulation ≠ .returned
  transfer : s.Transfer
  tracked : s.Tracked s₀

variable {s₀ : Sim bs n} {cfg : Config} {s t u : Firmware bs n} {f : FiberId} {input : Bool}
  {turn : Turn}

namespace Tracked

theorem exists_run (h : s.Tracked s₀) : ∃ events, Modellbahn.readings events = s.readings ∧
    (System.start s₀).run events = .ok s.toSystem := by
  rw [Tracked] at h
  cases hframe : s.frame with
  | none =>
    rw [hframe] at h
    exact h
  | some bytes =>
    rw [hframe] at h
    obtain ⟨before, during, -, -, hreadings, hrun⟩ := h
    refine ⟨_, ?_, hrun⟩
    simpa [Modellbahn.readings] using hreadings

theorem of_eq (h : s.Tracked s₀) (hsystem : t.toSystem = s.toSystem)
    (hreadings : t.readings = s.readings) : t.Tracked s₀ := by
  have hframe : t.frame = s.frame := congrArg System.frame hsystem
  rwa [Tracked, hframe, hreadings, hsystem]

/-- An event other than an edge of CS. -/
theorem extend (h : s.Tracked s₀) {e : Event} (hstep : s.toSystem.step e = .ok t.toSystem)
    (hreadings : t.readings = s.readings ++ Modellbahn.readings [e]) (hlow : e ≠ .csLow)
    (hhigh : e ≠ .csHigh) (hframe : t.frame.isSome = s.frame.isSome) : t.Tracked s₀ := by
  rw [Tracked] at h ⊢
  cases hs : s.frame with
  | none =>
    rw [hs] at h
    obtain ⟨events, hevents, hrun⟩ := h
    obtain ht : t.frame = none := by simpa [hs] using hframe
    rw [ht]
    refine ⟨events ++ [e], by rw [readings_append, hevents, hreadings], ?_⟩
    exact Machine.run_concat_eq_ok.mpr ⟨_, hrun, hstep⟩
  | some bytes =>
    rw [hs] at h
    obtain ⟨before, during, hl, hh, hevents, hrun⟩ := h
    obtain ⟨bytes', ht⟩ := Option.isSome_iff_exists.mp (hframe.trans (by rw [hs]; rfl))
    rw [ht]
    refine ⟨before, during ++ [e], ?_, ?_, ?_, ?_⟩
    · simpa using ⟨hl, hlow.symm⟩
    · simpa using ⟨hh, hhigh.symm⟩
    · rw [← List.append_assoc, readings_append, hevents, hreadings]
    · rw [← List.cons_append, ← List.append_assoc]
      exact Machine.run_concat_eq_ok.mpr ⟨_, hrun, hstep⟩

theorem csLow (h : s.Tracked s₀) (hnone : s.frame = none) (hframe : t.frame = some [])
    (hstep : s.toSystem.step .csLow = .ok t.toSystem) (hreadings : t.readings = s.readings) :
    t.Tracked s₀ := by
  rw [Tracked, hnone] at h
  obtain ⟨events, hevents, hrun⟩ := h
  rw [Tracked, hframe]
  refine ⟨events, [], by simp, by simp, by rw [List.append_nil, hevents, hreadings], ?_⟩
  exact Machine.run_concat_eq_ok.mpr ⟨_, hrun, hstep⟩

/-- CS rises after a complete frame. -/
theorem csHigh (h : s.Tracked s₀) (hframe : t.frame = none)
    (hstep : s.toSystem.step .csHigh = .ok t.toSystem) (hreadings : t.readings = s.readings) :
    t.Tracked s₀ := by
  obtain ⟨events, hevents, hrun⟩ := h.exists_run
  rw [Tracked, hframe]
  refine ⟨events ++ [.csHigh], ?_, Machine.run_concat_eq_ok.mpr ⟨_, hrun, hstep⟩⟩
  rw [readings_append, hevents, hreadings]
  exact List.append_nil _

/-- CS rises after a part of a frame. -/
theorem cut (h : s.Tracked s₀) {bytes : List Byte} (hsome : s.frame = some bytes)
    (hframe : t.frame = none) (hsystem : t.toSystem = { s.toSystem with frame := none })
    (hreadings : t.readings = s.readings) : t.Tracked s₀ := by
  rw [Tracked, hsome] at h
  obtain ⟨before, during, hlow, hhigh, hevents, hrun⟩ := h
  obtain ⟨d, hd, hrest⟩ := Machine.run_append_eq_ok.mp hrun
  obtain ⟨c, hc, hduring⟩ := Machine.run_cons_eq_ok.mp hrest
  cases System.effect_of_step hc with
  | csLow hnone hpending =>
    obtain ⟨events, hreadings', hevents'⟩ := System.exists_run_erase hduring hnone hlow hhigh
    rw [Tracked, hframe, hsystem]
    refine ⟨before ++ events, ?_, Machine.run_append_eq_ok.mpr ⟨d, hd, hevents'⟩⟩
    rw [readings_append, hreadings', ← readings_append, hevents, hreadings]

end Tracked

/-! ### Steps of the fibers -/

theorem Tracked.step_ne_stopped (hfit : bs.Fits) (h₀ : s₀.Routed) (h : s.Tracked s₀) (e : Event)
    (stop : Stop) : s.toSystem.step e ≠ .error (.stopped stop) := by
  obtain ⟨events, -, hrun⟩ := h.exists_run
  obtain ⟨b, hb, hboundary⟩ := System.boundary_of_run hfit h₀ (System.boundary_start s₀) hrun
  exact System.step_ne_stopped (routed_of_simulate h₀ hb) hboundary e stop

theorem Tracked.exists_advance (hfit : bs.Fits) (h₀ : s₀.Routed) (h : s.Tracked s₀)
    (hpc : s.simulation = .pass) (button : Bool) : ∃ sim, advance s.sim button = .ok sim := by
  cases hadvance : advance s.sim button with
  | ok sim => exact ⟨sim, rfl⟩
  | error e =>
    refine absurd ?_ (h.step_ne_stopped hfit h₀ (.wake button) e)
    simp [System.step, toSystem, hpc, SimulationPc.pending, hadvance]

theorem Tracked.exists_setBuffer (hfit : bs.Fits) (h₀ : s₀.Routed) (h : s.Tracked s₀)
    {call : IoPosition × Bool} {calls : List (IoPosition × Bool)}
    (hpc : s.simulation = .output (call :: calls)) :
    ∃ out, setBuffer s.sim.out call.1 call.2 = .ok out := by
  cases hset : setBuffer s.sim.out call.1 call.2 with
  | ok out => exact ⟨out, rfl⟩
  | error e =>
    refine absurd ?_ (h.step_ne_stopped hfit h₀ .write e)
    simp [System.step, toSystem, hpc, SimulationPc.pending, hset]

theorem Resumes.turn_ne_returns (h : Resumes cfg s f input u turn) (hfit : bs.Fits)
    (h₀ : s₀.Routed) (htracked : s.Tracked s₀) : turn ≠ .returns := by
  cases h with
  | notFound hpc hadvance =>
    obtain ⟨sim, hsim⟩ := htracked.exists_advance hfit h₀ hpc input
    rw [hsim] at hadvance
    cases hadvance
  | measurement hturn => exact hturn
  | driver hturn => exact hturn
  | _ => simp

/-- Calls of `set_buffer` are to come during the turn of the simulation fiber only. -/
theorem Resumes.pending (h : Resumes cfg s f input u turn) (hturn : turn ≠ .returns)
    (hwriting : s.simulation.pending ≠ [] → f = .simulation) :
    u.simulation.pending ≠ [] → f = .simulation ∧ turn = .goesOn := by
  intro hpending
  cases h with
  | pass => exact ⟨rfl, rfl⟩
  | notFound => exact absurd rfl hturn
  | write => exact ⟨rfl, rfl⟩
  | fallAsleep => exact absurd rfl hpending
  | asleep hpc => exact absurd (by rw [hpc]; rfl) hpending
  | wake => exact absurd rfl hpending
  | _ => exact absurd (hwriting hpending) (by simp)

theorem Resumes.alive (h : Resumes cfg s f input u turn) (hturn : turn ≠ .returns)
    (hs : s.simulation ≠ .returned) : u.simulation ≠ .returned := by
  cases h with
  | notFound => exact absurd rfl hturn
  | pass => simp
  | write => simp
  | fallAsleep => simp
  | wake => simp
  | _ => exact hs

/-- The flags and bytes are all that a transfer depends on. -/
theorem Transfer.of_eq (h : s.Transfer) (hcontrol : t.control = s.control) (hspi : t.spi = s.spi)
    (hframe : t.frame = s.frame) : t.Transfer := by
  refine ⟨?_, ?_, ?_, ?_, ?_, ?_, ?_, ?_, ?_⟩
  · rw [hframe, hcontrol]; exact h.frame_isSome
  · rw [hframe, hspi]; exact h.length
  · rw [hspi]; exact h.shifted_le
  · rw [hspi]; exact h.read_le
  · rw [hspi]; exact h.error
  · rw [hspi]; exact h.transmitComplete
  · rw [hspi]; exact h.receiveComplete
  · rw [hcontrol, hspi]; exact h.idle
  · rw [hcontrol, hspi]; exact h.finished

/-- After the loop of `transfer` all bytes are shifted out, or there was an error. -/
theorem Transfer.shifted_of_end (h : s.Transfer)
    (hend : s.spi.dmaError = true ∨
      (s.spi.dmaTransmitComplete = true ∨ s.spi.dmaReceiveComplete = true) ∧ s.busy = false) :
    s.spi.dmaError = true ∨ s.spi.shifted = (calculateBufferSize bs).toNat := by
  refine hend.imp_right fun hcomplete => ?_
  rcases hcomplete.1 with htx | hrx
  · have hbusy : s.spi.read ≤ s.spi.shifted := by simpa [busy] using hcomplete.2
    rw [← h.transmitComplete htx]
    exact le_antisymm h.shifted_le hbusy
  · exact h.receiveComplete hrx

/-- **A step of a fiber** keeps the flags and bytes in order. -/
theorem Resumes.transfer (h : Resumes cfg s f input u turn) (hturn : turn ≠ .returns)
    (hs : s.Transfer) : u.Transfer := by
  cases h with
  | notFound => exact absurd rfl hturn
  | reset hpc htx hrx =>
    refine ⟨by simp, ?_, le_rfl, Nat.zero_le _, ?_, ?_, ?_, ?_, ?_⟩
    · intro bytes hbytes
      cases hbytes
      rfl
    · intro herror; cases herror
    · intro hcomplete; cases hcomplete
    · intro hcomplete; cases hcomplete
    · intro hpoll; exact absurd rfl hpoll
    · intro hset; cases hset
  | transferEnd hpc hend =>
    have hshifted := hs.shifted_of_end hend
    refine ⟨?_, hs.length, hs.shifted_le, hs.read_le, hs.error, hs.transmitComplete,
      hs.receiveComplete, ?_, fun _ => hshifted⟩
    · have hsome : s.frame.isSome = true := hs.frame_isSome.mpr (Or.inl hpc)
      simp [hsome]
    · intro _ hrunning
      rcases hshifted with herror | hall
      · exact absurd hrunning (by simp [hs.error herror])
      · exact le_antisymm hs.read_le (hall ▸ hs.shifted_le)
  | set hpc =>
    have hidle := hs.idle (by simp [hpc])
    refine ⟨by simp, ?_, hs.shifted_le, hs.read_le, hs.error, hs.transmitComplete,
      hs.receiveComplete, fun _ => hidle, ?_⟩
    · intro bytes hbytes; cases hbytes
    · intro hset; cases hset
  | controlWake hpc =>
    have hidle := hs.idle (by simp [hpc])
    have hnone : s.frame = none := by
      rw [← Option.not_isSome_iff_eq_none, hs.frame_isSome, hpc]
      simp
    refine ⟨by simp [hnone], hs.length, hs.shifted_le, hs.read_le, hs.error, hs.transmitComplete,
      hs.receiveComplete, fun _ => hidle, ?_⟩
    intro hset; cases hset
  | _ => exact hs.of_eq rfl rfl rfl

/-- **A step of a fiber** makes at most one event of the system. -/
theorem Resumes.tracked (h : Resumes cfg s f input u turn) (hturn : turn ≠ .returns)
    (hwriting : s.simulation.pending ≠ [] → f = .simulation) (htransfer : s.Transfer)
    (hs : s.Tracked s₀) : u.Tracked s₀ := by
  have hidle : f ≠ .simulation → s.simulation.pending = [] := by
    intro hf
    by_contra hpending
    exact hf (hwriting hpending)
  cases h with
  | pass hpc hadvance =>
    refine hs.extend (e := .wake input) ?_ rfl (by simp) (by simp) rfl
    simp [System.step, toSystem, hpc, SimulationPc.pending, hadvance]
  | notFound => exact absurd rfl hturn
  | write hpc hset =>
    refine hs.extend (e := .write) ?_ (List.append_nil _).symm (by simp) (by simp) rfl
    simp [System.step, toSystem, hpc, SimulationPc.pending, hset]
  | fallAsleep hpc => exact hs.of_eq (by simp [toSystem, hpc, SimulationPc.pending]) rfl
  | wake hpc => exact hs.of_eq (by simp [toSystem, hpc, SimulationPc.pending]) rfl
  | reset hpc =>
    have hnone : s.frame = none := by
      rw [← Option.not_isSome_iff_eq_none, htransfer.frame_isSome, hpc]
      simp
    refine hs.csLow hnone rfl ?_ rfl
    simp [System.step, toSystem, hnone, hidle]
  | set hpc =>
    obtain ⟨bytes, hbytes⟩ :=
      Option.isSome_iff_exists.mp (htransfer.frame_isSome.mpr (Or.inr hpc))
    by_cases hlength : bytes.length = (calculateBufferSize bs).toNat
    · refine hs.csHigh rfl ?_ rfl
      simp [System.step, toSystem, hbytes, hlength, hidle, Option.filter]
    · refine hs.cut hbytes rfl ?_ rfl
      simp [toSystem, hbytes, hlength, Option.filter]
  | _ => exact hs.of_eq rfl rfl

/-! ### Events -/

namespace Sound

theorem of_boot {order : List FiberId} (horder : ∀ f, f ∈ order)
    (hboot : boot s₀ order = .ok s) : Sound s₀ s := by
  obtain ⟨s', hs', hturns⟩ := exists_boot s₀ horder
  obtain rfl : s' = s := Except.ok.inj (hs'.symm.trans hboot)
  rw [boot] at hboot
  split at hboot
  · cases hboot
  · cases hboot
    refine ⟨hturns, fun hpending => absurd rfl hpending, by simp, ?_, [], rfl, rfl⟩
    refine ⟨by simp, ?_, le_rfl, Nat.zero_le _, ?_, ?_, ?_, ?_, ?_⟩
    · intro bytes hbytes; cases hbytes
    · intro herror; cases herror
    · intro hcomplete; cases hcomplete
    · intro hcomplete; cases hcomplete
    · intro _ hrunning; cases hrunning
    · intro hset; cases hset

theorem cpu (hfit : bs.Fits) (h₀ : s₀.Routed) (h : Sound s₀ s) (hstep : s.cpu cfg input = .ok t) :
    Sound s₀ t := by
  obtain ⟨f, u, turn, hcurrent, hresume, ht⟩ := cpu_cases hstep
  obtain ⟨f', rest, hturns⟩ := h.turns
  obtain rfl : f' = f := Option.some.inj (hturns.current.symm.trans hcurrent)
  have hturn := hresume.turn_ne_returns hfit h₀ h.tracked
  have hwriting : s.simulation.pending ≠ [] → f' = .simulation := fun hpending =>
    Option.some.inj (hcurrent.symm.trans (h.writing hpending))
  have hpending := hresume.pending hturn hwriting
  have halive := hresume.alive hturn h.alive
  have htransfer := hresume.transfer hturn h.transfer
  have htracked := hresume.tracked hturn hwriting h.transfer h.tracked
  rcases hresume.turns hturn hturns ht with
    ⟨-, rfl, hnext⟩ | ⟨hyields, g, rest', next, rfl, rfl, hnext⟩
  · exact ⟨⟨f', rest, hnext⟩, fun hp => by rw [hnext.current, (hpending hp).1], halive, htransfer,
      htracked⟩
  · refine ⟨⟨g, _, hnext⟩, fun hp => ?_, halive, htransfer.of_eq rfl rfl rfl,
      htracked.of_eq rfl rfl⟩
    have hgoes := (hpending hp).2
    rw [hyields] at hgoes
    cases hgoes

theorem readByte (h : Sound s₀ s) (hstep : s.readByte = .ok t) : Sound s₀ t := by
  rw [Firmware.readByte] at hstep
  split_ifs at hstep with hread
  cases hstep
  have htransfer := h.transfer
  -- The DMA reads during the loop of `transfer` only.
  have hpoll : s.control = .poll := by
    by_contra hcontrol
    have hall := htransfer.idle hcontrol hread.1
    omega
  obtain ⟨bytes, hbytes⟩ :=
    Option.isSome_iff_exists.mp (htransfer.frame_isSome.mpr (Or.inl hpoll))
  have hlength := htransfer.length bytes hbytes
  refine ⟨h.turns, h.writing, h.alive, ?_, ?_⟩
  · refine ⟨by simpa using htransfer.frame_isSome, ?_, htransfer.shifted_le.trans (Nat.le_succ _),
      hread.2, htransfer.error, ?_, htransfer.receiveComplete, ?_, htransfer.finished⟩
    · intro bytes' hbytes'
      rw [hbytes] at hbytes'
      obtain rfl := Option.some.inj hbytes'
      simp [hlength]
    · intro hcomplete
      have hall := htransfer.transmitComplete hcomplete
      omega
    · intro hcontrol
      exact absurd hpoll hcontrol
  · refine h.tracked.extend (e := .byte) ?_ (List.append_nil _).symm (by simp) (by simp) (by simp)
    simp [System.step, toSystem, hbytes, hlength, hread.2]

theorem of_spi (h : Sound s₀ s) {spi : SpiDma}
    (htransfer : ({ s with spi := spi } : Firmware bs n).Transfer) :
    Sound s₀ { s with spi := spi } :=
  ⟨h.turns, h.writing, h.alive, htransfer, h.tracked.of_eq rfl rfl⟩

theorem step (hfit : bs.Fits) (h₀ : s₀.Routed) (h : Sound s₀ s) {e : FirmwareEvent}
    (hstep : s.step cfg e = .ok t) : Sound s₀ t := by
  have htransfer := h.transfer
  cases e with
  | count =>
    cases hstep
    exact ⟨h.turns, h.writing, h.alive, htransfer.of_eq rfl rfl rfl, h.tracked.of_eq rfl rfl⟩
  | read => exact h.readByte hstep
  | shift =>
    rw [Firmware.step] at hstep
    split_ifs at hstep with hlt
    cases hstep
    refine h.of_spi ⟨htransfer.frame_isSome, htransfer.length, hlt, htransfer.read_le,
      htransfer.error, htransfer.transmitComplete, fun hcomplete => ?_, htransfer.idle,
      fun hset => (htransfer.finished hset).imp_right fun hall => ?_⟩
    · have hall := htransfer.receiveComplete hcomplete
      have hle := htransfer.read_le
      omega
    · have hle := htransfer.read_le
      omega
  | transmitComplete =>
    rw [Firmware.step] at hstep
    split_ifs at hstep with hall
    cases hstep
    exact h.of_spi ⟨htransfer.frame_isSome, htransfer.length, htransfer.shifted_le,
      htransfer.read_le, fun _ => rfl, fun _ => hall.2, htransfer.receiveComplete,
      fun _ hrunning => (by cases hrunning), htransfer.finished⟩
  | receiveComplete =>
    rw [Firmware.step] at hstep
    split_ifs at hstep with hall
    cases hstep
    exact h.of_spi ⟨htransfer.frame_isSome, htransfer.length, htransfer.shifted_le,
      htransfer.read_le, htransfer.error, htransfer.transmitComplete, fun _ => hall.2,
      htransfer.idle, htransfer.finished⟩
  | transferError =>
    rw [Firmware.step] at hstep
    split_ifs at hstep
    cases hstep
    exact h.of_spi ⟨htransfer.frame_isSome, htransfer.length, htransfer.shifted_le,
      htransfer.read_le, fun _ => rfl, htransfer.transmitComplete, htransfer.receiveComplete,
      fun _ hrunning => (by cases hrunning), fun _ => Or.inl rfl⟩
  | cpu input => exact h.cpu hfit h₀ hstep

theorem run (hfit : bs.Fits) (h₀ : s₀.Routed) (h : Sound s₀ s) {es : List FirmwareEvent}
    (hrun : s.run cfg es = .ok t) : Sound s₀ t :=
  Machine.run_invariant (fun hs hstep => step hfit h₀ hs hstep) h hrun

/-- A step of a fiber that does not take place is not due. -/
theorem resume_eq_error (hfit : bs.Fits) (h₀ : s₀.Routed) (h : Sound s₀ s) {fault : FirmwareFault}
    (hresume : s.resume cfg f input = .error fault) : fault = .notReady := by
  cases f with
  | simulation =>
    rw [resume, resumeSimulation] at hresume
    cases hpc : s.simulation with
    | pass =>
      obtain ⟨sim, hsim⟩ := h.tracked.exists_advance hfit h₀ hpc input
      simp [hpc, hsim] at hresume
    | output calls =>
      cases calls with
      | nil => simp [hpc] at hresume
      | cons call calls =>
        obtain ⟨out, hout⟩ := h.tracked.exists_setBuffer hfit h₀ hpc
        simp [hpc, hout] at hresume
    | sleep start =>
      simp only [hpc] at hresume
      split_ifs at hresume
    | returned => exact absurd hpc h.alive
  | expandControl =>
    rw [resume, resumeControl] at hresume
    cases hpc : s.control with
    | reset =>
      simp only [hpc] at hresume
      split_ifs at hresume
      cases hresume
      rfl
    | poll =>
      simp only [hpc] at hresume
      split_ifs at hresume
    | set => simp [hpc] at hresume
    | sleep start =>
      simp only [hpc] at hresume
      split_ifs at hresume
  | measurement => cases hresume
  | driverFiber => cases hresume

theorem step_eq_error (hfit : bs.Fits) (h₀ : s₀.Routed) (h : Sound s₀ s) {e : FirmwareEvent}
    {fault : FirmwareFault} (hstep : s.step cfg e = .error fault) : fault = .notReady := by
  cases e with
  | count => cases hstep
  | read =>
    rw [Firmware.step, Firmware.readByte] at hstep
    split_ifs at hstep
    cases hstep
    rfl
  | shift =>
    rw [Firmware.step] at hstep
    split_ifs at hstep
    cases hstep
    rfl
  | transmitComplete =>
    rw [Firmware.step] at hstep
    split_ifs at hstep
    cases hstep
    rfl
  | receiveComplete =>
    rw [Firmware.step] at hstep
    split_ifs at hstep
    cases hstep
    rfl
  | transferError =>
    rw [Firmware.step] at hstep
    split_ifs at hstep
    cases hstep
    rfl
  | cpu input =>
    obtain ⟨f, rest, hturns⟩ := h.turns
    rw [Firmware.step, Firmware.cpu, hturns.current] at hstep
    cases hresume : s.resume cfg f input with
    | error e =>
      simp only [hresume] at hstep
      cases hstep
      exact h.resume_eq_error hfit h₀ hresume
    | ok result =>
      obtain ⟨u, turn⟩ := result
      have hu := resumes_of_resume hresume
      have hturn := hu.turn_ne_returns hfit h₀ h.tracked
      simp only [hresume] at hstep
      cases turn with
      | goesOn => cases hstep
      | yields =>
        obtain ⟨g, rest', rfl⟩ := hturns.exists_cons
        obtain ⟨next, hnext, -⟩ := hturns.yield
        simp [schedule, hu.scheduler_eq hturn, hnext] at hstep
      | returns => exact absurd rfl hturn

/-- No list of events goes wrong. -/
theorem run_eq_error (hfit : bs.Fits) (h₀ : s₀.Routed) (h : Sound s₀ s) {es : List FirmwareEvent}
    {fault : FirmwareFault} (hrun : s.run cfg es = .error fault) : fault = .notReady := by
  induction es using List.reverseRecOn with
  | nil => cases hrun
  | append_singleton es e ih =>
    rcases Machine.run_concat_eq_error.mp hrun with hfirst | ⟨t, ht, hlast⟩
    · exact ih hfirst
    · exact (h.run hfit h₀ ht).step_eq_error hfit h₀ hlast

/-- CS rises by the step of `controller::update` at `CS::set()` only. -/
theorem control_of_csHigh (h : Sound s₀ s) (hfit : bs.Fits) (h₀ : s₀.Routed) {e : FirmwareEvent}
    {bytes : List Byte} (hstep : s.step cfg e = .ok t) (hlow : s.frame = some bytes)
    (hhigh : t.frame = none) : s.control = .set ∧ s.scheduler.current = some .expandControl := by
  have hkept : t.frame.isSome = s.frame.isSome → False := by
    rw [hlow, hhigh]
    simp
  cases e with
  | cpu input =>
    obtain ⟨f, u, turn, hcurrent, hresume, ht⟩ := cpu_cases hstep
    obtain ⟨f', rest, hturns⟩ := h.turns
    obtain rfl : f' = f := Option.some.inj (hturns.current.symm.trans hcurrent)
    have hturn := hresume.turn_ne_returns hfit h₀ h.tracked
    have hframe : t.frame = u.frame := by
      rcases hresume.turns hturn hturns ht with ⟨-, rfl, -⟩ | ⟨-, g, rest', next, -, rfl, -⟩
      · rfl
      · rfl
    rw [hframe] at hkept
    cases hresume with
    | notFound => exact absurd rfl hturn
    | set hpc => exact ⟨hpc, hcurrent⟩
    | reset => exact absurd (hframe.symm.trans hhigh) (by simp)
    | _ => exact absurd rfl hkept
  | read =>
    rw [Firmware.step, Firmware.readByte] at hstep
    split_ifs at hstep
    cases hstep
    exact absurd (by simp) hkept
  | count =>
    cases hstep
    exact absurd rfl hkept
  | _ =>
    rw [Firmware.step] at hstep
    split_ifs at hstep
    cases hstep
    exact absurd rfl hkept

/-- **CS rises** after a complete frame, which the system transmits, or an error. -/
theorem frame_of_csHigh (h : Sound s₀ s) (hfit : bs.Fits) (h₀ : s₀.Routed) {e : FirmwareEvent}
    {bytes : List Byte} (hstep : s.step cfg e = .ok t) (hlow : s.frame = some bytes)
    (hhigh : t.frame = none) :
    (s.spi.dmaError = true ∨ bytes.length = (calculateBufferSize bs).toNat ∧
        s.spi.shifted = (calculateBufferSize bs).toNat) ∧
      (bytes.length = (calculateBufferSize bs).toNat → ∃ before during,
        Modellbahn.readings (before ++ during) = s.readings ∧
          Transmits s₀ before during bytes) := by
  obtain ⟨hcontrol, hcurrent⟩ := h.control_of_csHigh hfit h₀ hstep hlow hhigh
  have htransfer := h.transfer
  constructor
  · refine (htransfer.finished hcontrol).imp_right fun hall => ⟨?_, hall⟩
    rw [htransfer.length bytes hlow]
    exact le_antisymm htransfer.read_le (hall ▸ htransfer.shifted_le)
  · intro hlength
    have hpending : s.simulation.pending = [] := by
      by_contra hp
      have hsimulation := h.writing hp
      rw [hcurrent] at hsimulation
      cases hsimulation
    have htracked := h.tracked
    rw [Tracked, hlow] at htracked
    obtain ⟨before, during, hl, hh, hreadings, hevents⟩ := htracked
    have hset : s.toSystem.step .csHigh =
        .ok { s.toSystem with frame := none, sent := some bytes } := by
      simp [System.step, toSystem, hlow, hlength, hpending]
    refine ⟨before, during, hreadings, hl, hh, ?_⟩
    rw [System.run, Machine.run_concat_eq_ok.mpr ⟨_, hevents, hset⟩]
    rfl

end Sound

end Firmware

/-- **The firmware makes events of the system of the two fibers and the DMA**, in every order in
which the fibers are started and for whatever the hardware does, as long as the handlers of both DMA
channels have run before the next transfer starts. No list of events goes wrong: no fiber returns,
and the scheduler dereferences no null pointer. In every state all four fibers are
scheduled, the simulation fiber does not yield before the end of its output loop, and the state of
the simulation, the calls to come, and the bytes on the wire are those after some events of the
system, with the values that the button had in the passes. -/
theorem firmware_refines_system (cfg : Config) (order : List FiberId) (horder : ∀ f, f ∈ order)
    (es : List FirmwareEvent) :
    ∃ boot : Firmware boards 22, Firmware.boot Sim.initial order = .ok boot ∧
      (∀ fault, boot.run cfg es = .error fault → fault = .notReady) ∧
      ∀ s, boot.run cfg es = .ok s →
        (∀ f, s.scheduler.scheduled f = true) ∧
        (s.simulation.pending ≠ [] → s.scheduler.current = some .simulation) ∧
        ∃ events, readings events = s.readings ∧
          (System.start Sim.initial).run events = .ok s.toSystem := by
  obtain ⟨boot, hboot, -⟩ := Firmware.exists_boot (Sim.initial) horder
  have hsound := Firmware.Sound.of_boot horder hboot
  refine ⟨boot, hboot, fun fault => hsound.run_eq_error boards_fits routed_initial, fun s hs => ?_⟩
  have h := hsound.run boards_fits routed_initial hs
  obtain ⟨f, rest, hturns⟩ := h.turns
  exact ⟨fun g => (hturns.represents.scheduled g).mpr (hturns.mem g), h.writing,
    h.tracked.exists_run⟩

/-- The simulation fiber before the others. -/
def simulationFirst : List FiberId := [.simulation, .expandControl, .measurement, .driverFiber]

theorem mem_simulationFirst (f : FiberId) : f ∈ simulationFirst := by
  cases f <;> decide

/-- The first pass with its 22 calls of `set_buffer`, and the frame after it. -/
def passAndFrame : List FirmwareEvent :=
  List.replicate 25 (.cpu false) ++ List.replicate 7 .read ++ List.replicate 7 .shift ++
    [.transmitComplete, .cpu false, .cpu false]

/-- After the first pass and its frame, which powers `A_a`. -/
theorem firmware_refines_system_first :
    ∃ boot s : Firmware boards 22, Firmware.boot Sim.initial simulationFirst = .ok boot ∧
      boot.run boardConfig passAndFrame = .ok s ∧ s.sent = some [0, 0, 0, 0, 0, 0, 0x20] ∧
      (∀ f, s.scheduler.scheduled f = true) ∧
      (s.simulation.pending ≠ [] → s.scheduler.current = some .simulation) ∧
      ∃ events, readings events = [false] ∧
        (System.start Sim.initial).run events = .ok s.toSystem := by
  have h : ((Firmware.boot Sim.initial simulationFirst).bind fun boot : Firmware boards 22 =>
      (boot.run boardConfig passAndFrame).map fun s => (s.sent, s.readings)) =
        .ok (some [0, 0, 0, 0, 0, 0, 0x20], [false]) := by decide +kernel
  obtain ⟨boot, hboot, h⟩ := Machine.exists_ok_of_bind h
  obtain ⟨s, hs, h⟩ := Machine.exists_ok_of_map h
  obtain ⟨hsent, hreadings⟩ := Prod.mk.inj h
  obtain ⟨boot', hboot', -, hrefines⟩ :=
    firmware_refines_system boardConfig simulationFirst mem_simulationFirst passAndFrame
  obtain rfl : boot = boot' := Except.ok.inj (hboot.symm.trans hboot')
  obtain ⟨hscheduled, hwriting, hsystem⟩ := hrefines s hs
  exact ⟨boot, s, hboot, hs, hsent, hscheduled, hwriting, hreadings ▸ hsystem⟩

/-- **The frames of the firmware.** In every run, when CS rises after the bytes `bytes`, either
there was an error of the DMA, or all bytes of the buffer were sent and the last one has left the
shift register; and a complete frame is one that the system of the two fibers and the DMA transmits,
also after transfers that were cut short. Here, too, the handlers of both DMA channels have run
before the next transfer starts. -/
theorem firmware_frames (cfg : Config) (order : List FiberId) (horder : ∀ f, f ∈ order)
    (boot s t : Firmware boards 22) (es : List FirmwareEvent) (e : FirmwareEvent)
    (bytes : List Byte) (hboot : Firmware.boot Sim.initial order = .ok boot)
    (hrun : boot.run cfg es = .ok s) (hstep : s.step cfg e = .ok t)
    (hlow : s.frame = some bytes) (hhigh : t.frame = none) :
    (s.spi.dmaError = true ∨ bytes.length = 7 ∧ s.spi.shifted = 7) ∧
      (bytes.length = 7 → ∃ before during, readings (before ++ during) = s.readings ∧
        Transmits Sim.initial before during bytes) :=
  ((Firmware.Sound.of_boot horder hboot).run boards_fits routed_initial hrun).frame_of_csHigh
    boards_fits routed_initial hstep hlow hhigh

/-- The steps of the fibers and the DMA up to the first rising edge of CS. -/
def firstFrame : List FirmwareEvent :=
  List.replicate 6 (.cpu false) ++ List.replicate 7 .read ++ List.replicate 7 .shift ++
    [.transmitComplete, .cpu false]

/-- The first frame is all zero. -/
theorem firmware_frames_first :
    ∃ boot s t : Firmware boards 22, Firmware.boot Sim.initial Firmware.startOrder = .ok boot ∧
      boot.run boardConfig firstFrame = .ok s ∧ s.step boardConfig (.cpu false) = .ok t ∧
      ((s.spi.dmaError = true ∨
          (List.replicate 7 (0 : Byte)).length = 7 ∧ s.spi.shifted = 7) ∧
        ((List.replicate 7 (0 : Byte)).length = 7 → ∃ before during,
          readings (before ++ during) = s.readings ∧
            Transmits Sim.initial before during (List.replicate 7 0))) :=
  ⟨_, _, _, rfl, rfl, rfl, firmware_frames boardConfig Firmware.startOrder Firmware.mem_startOrder
    _ _ _ firstFrame (.cpu false) (List.replicate 7 0) rfl rfl rfl rfl rfl⟩

end Modellbahn
