import Modellbahn.Log.Stream
import Modellbahn.Simulation.OutputImage

/-!
# What the log tells of the simulation

Every pass of the simulation logs one line with the numbers of three tracks. From the text of the
log, with the lines of the other fibers in between, these lines can be read back, and with them the
ways that the simulation has taken; so the text determines the state that the simulation has
reached.

## Main definitions

* `Modellbahn.LogLine.operands`: the operands of a log statement on its stream.
* `Modellbahn.moveEntries`: the log statements of a run.

## Main results

* `Modellbahn.log_of_setBuffers`: accepted calls of `set_buffer` log nothing.
* `Modellbahn.log_determines_run`: two runs with the same text have come to the same state.
-/

namespace Modellbahn

/-- An operand, with the `static_cast<int>` of a number. -/
def LogItem.operand : LogItem → Operand
  | .text s => .text s
  | .number value => .int32 (BitVec.ofInt 32 value)

/-- The operands of a log statement, with the end of the line. -/
def LogLine.operands (line : LogLine) : List (LogLevel × Operand) :=
  (line.items.map LogItem.operand ++ [Operand.endl]).map (line.level, ·)

namespace LogEntry

/-- Whether the statement is that of a pass of the simulation. -/
def isMove : LogEntry → Bool
  | .move .. => true
  | _ => false

end LogEntry

variable {bs : BoardTable} {n : ℕ} {s t u : Sim bs n} {button : Bool}

/-- Accepted calls of `set_buffer` log nothing. -/
theorem log_of_setBuffers (hfit : bs.Fits) {calls : List (IoPosition × Bool)}
    (h : ∀ call ∈ calls, Accepted bs call.1) {out out' : Output bs}
    (hout : setBuffers out calls = .ok out') : out'.log = out.log := by
  induction calls generalizing out with
  | nil =>
    cases hout
    rfl
  | cons call calls ih =>
    obtain ⟨next, hnext, hrest⟩ := Machine.run_cons_eq_ok.mp hout
    obtain ⟨next', hnext', hlog, -⟩ :=
      setBuffer_of_accepted hfit (h call List.mem_cons_self) out call.2
    obtain rfl : next' = next := Except.ok.inj (hnext'.symm.trans hnext)
    exact (ih (fun c hc => h c (List.mem_cons_of_mem _ hc)) hrest).trans hlog

/-- The log statement of a pass that goes on to `next`. -/
def Sim.moveEntry (s : Sim bs n) (next : Fin n) : LogEntry :=
  .move (BitVec.ofInt 32 s.current.id) (BitVec.ofInt 32 (s.tracks.get next).id)
    (BitVec.ofInt 32 s.last.id)

theorem Sim.operands_moveLine (s : Sim bs n) (next : Fin n) :
    (s.moveLine next).operands = (s.moveEntry next).operands := rfl

/-- The log statements of a run. -/
def moveEntries (s : Sim bs n) : List Bool → List LogEntry
  | [] => []
  | button :: readings =>
    match iteration s button with
    | .ok t => s.moveEntry t.currentTrack :: moveEntries t readings
    | .error _ => []

theorem moveEntries_cons (hit : iteration s button = .ok t) (readings : List Bool) :
    moveEntries s (button :: readings) = s.moveEntry t.currentTrack :: moveEntries t readings := by
  rw [moveEntries, hit]

/-- **One pass logs one line.** -/
theorem Step.log_eq (hfit : bs.Fits) (hstep : Step s button t) (hwired : Wired bs s.tracks) :
    t.out.log = s.out.log ++ [s.moveLine t.currentTrack] := by
  have hwired' := hwired.of_sameTable hstep.sameTable
  refine log_of_setBuffers hfit (fun call hcall => hwired'.accepted_of_mem ?_) hstep.out_eq
  exact (outputCalls_sublist t.tracks).mem hcall

theorem operands_log (hfit : bs.Fits) (h : s.Routed) (hwired : Wired bs s.tracks)
    {readings : List Bool} (hrun : simulate s readings = .ok t) :
    t.out.log.flatMap LogLine.operands = s.out.log.flatMap LogLine.operands ++
      (moveEntries s readings).flatMap LogEntry.operands := by
  induction readings generalizing s with
  | nil =>
    cases hrun
    exact (List.append_nil _).symm
  | cons button readings ih =>
    obtain ⟨u, hit, hrest⟩ := Machine.run_cons_eq_ok.mp hrun
    have hstep := step_of_iteration h hit
    rw [ih (hstep.routed h) (hwired.of_sameTable hstep.sameTable) hrest,
      hstep.log_eq hfit hwired, moveEntries_cons hit, List.flatMap_append, List.flatMap_singleton,
      List.flatMap_cons, Sim.operands_moveLine, List.append_assoc]

/-- The next track determines the pass. -/
theorem iteration_congr (h : s.Routed) {button' : Bool} (hit : iteration s button = .ok t)
    (hit' : iteration s button' = .ok u) (hcurrent : t.currentTrack = u.currentTrack) : t = u := by
  have hnext := (step_of_iteration h hit).currentTrack_eq.symm
  have hnext' := (step_of_iteration h hit').currentTrack_eq.symm
  rw [← hcurrent] at hnext'
  have hadvance : advance s button = advance s button' := by
    rw [h.advance_eq hnext, h.advance_eq hnext', hnext, hnext']
  rw [iteration, hadvance] at hit
  exact Except.ok.inj (hit.symm.trans hit')

/-- The line of a pass determines the next track. -/
theorem Sim.Routed.next_of_moveEntry (h : s.Routed) (hn : n ≤ 2 ^ 31) {i j : Fin n}
    (heq : s.moveEntry i = s.moveEntry j) : i = j := by
  have hid : BitVec.ofInt 32 (s.tracks.get i).id = BitVec.ofInt 32 (s.tracks.get j).id :=
    (LogEntry.move.inj heq).2.1
  rw [h.wellFormed.id_eq, h.wellFormed.id_eq, BitVec.ofInt_natCast, BitVec.ofInt_natCast] at hid
  have hvalue := congrArg BitVec.toNat hid
  rw [BitVec.toNat_ofNat, BitVec.toNat_ofNat, Nat.mod_eq_of_lt (by omega),
    Nat.mod_eq_of_lt (by omega)] at hvalue
  exact Fin.ext hvalue

/-- **The lines of a run determine where it ends.** -/
theorem run_of_moveEntries (hn : n ≤ 2 ^ 31) (h : s.Routed) {readings readings' : List Bool}
    (hrun : simulate s readings = .ok t) (hrun' : simulate s readings' = .ok u)
    (heq : moveEntries s readings = moveEntries s readings') : t = u := by
  induction readings generalizing s readings' with
  | nil =>
    cases readings' with
    | nil => exact Except.ok.inj (hrun.symm.trans hrun')
    | cons button' readings' =>
      obtain ⟨v, hit', -⟩ := Machine.run_cons_eq_ok.mp hrun'
      rw [moveEntries_cons hit'] at heq
      cases heq
  | cons button readings ih =>
    obtain ⟨v, hit, hrest⟩ := Machine.run_cons_eq_ok.mp hrun
    rw [moveEntries_cons hit] at heq
    cases readings' with
    | nil => cases heq
    | cons button' readings' =>
      obtain ⟨v', hit', hrest'⟩ := Machine.run_cons_eq_ok.mp hrun'
      rw [moveEntries_cons hit'] at heq
      obtain ⟨hline, htail⟩ := List.cons.inj heq
      obtain rfl := iteration_congr h hit hit' (h.next_of_moveEntry hn hline)
      exact ih ((step_of_iteration h hit).routed h) hrest hrest' htail

theorem entries_of_operands {entries entries' : List LogEntry}
    (h : entries.flatMap LogEntry.operands = entries'.flatMap LogEntry.operands) :
    entries = entries' := by
  refine LogEntry.prefixCode_text.flatMap_injective LogEntry.text_ne_nil ?_
  have htext := congrArg Loggers.text h
  rwa [text_entries, text_entries] at htext

/-- **The log determines the run.** Take two runs of the simulation from its start, whatever the
button says, and the log statements of the fibers up to some time, in which those of the passes are
those of the run. If the text on the device is the same, and no stream has written more than
`INT_MAX` characters of integers, then the statements are the same, and the two runs have come to
the same state: the same tracks, with their powers and switch states, and the same output buffer. -/
theorem log_determines_run (readings readings' : List Bool) (s s' : Sim boards 22)
    (entries entries' : List LogEntry) (l l' : Loggers)
    (hs : simulate Sim.initial readings = .ok s) (hs' : simulate Sim.initial readings' = .ok s')
    (hmoves : s.out.log.flatMap LogLine.operands =
      (entries.filter LogEntry.isMove).flatMap LogEntry.operands)
    (hmoves' : s'.out.log.flatMap LogLine.operands =
      (entries'.filter LogEntry.isMove).flatMap LogEntry.operands)
    (hrun : Loggers.initial.run (entries.flatMap LogEntry.operands) = .ok l)
    (hrun' : Loggers.initial.run (entries'.flatMap LogEntry.operands) = .ok l')
    (hcount : ∀ level, Loggers.digitCount level (entries.flatMap LogEntry.operands) ≤ INT_MAX.toNat)
    (hcount' : ∀ level,
      Loggers.digitCount level (entries'.flatMap LogEntry.operands) ≤ INT_MAX.toNat)
    (hout : l.out = l'.out) : entries = entries' ∧ s = s' := by
  have hentries := entries_of_out hrun hrun' hcount hcount' hout
  have hlog := operands_log boards_fits routed_initial wired_tracks hs
  have hlog' := operands_log boards_fits routed_initial wired_tracks hs'
  have hnone : (Sim.initial.out.log.flatMap LogLine.operands) = [] := rfl
  rw [hnone, List.nil_append] at hlog hlog'
  refine ⟨hentries, run_of_moveEntries (by decide) routed_initial hs hs' (entries_of_operands ?_)⟩
  rw [← hlog, ← hlog', hmoves, hmoves', hentries]

/-- The log statement of the first pass, with one of the sensors before it. -/
def firstEntries : List LogEntry := [.sensors 1 2 3, .move 3 4 2]

/-- In the first pass there is one way, whatever the button says. -/
theorem log_determines_run_first :
    ∃ s s', simulate Sim.initial [false] = .ok s ∧ simulate Sim.initial [true] = .ok s' ∧
      s = s' := by
  obtain ⟨s, hs, -⟩ := exists_simulate boards_fits routed_initial [false]
  obtain ⟨s', hs', -⟩ := exists_simulate boards_fits routed_initial [true]
  obtain ⟨l, hl, -⟩ := Loggers.exists_run (firstEntries.flatMap LogEntry.operands)
  have hlog := operands_log boards_fits routed_initial wired_tracks hs
  have hlog' := operands_log boards_fits routed_initial wired_tracks hs'
  have hmoves : moveEntries Sim.initial [false] = firstEntries.filter LogEntry.isMove := by
    decide +kernel
  have hmoves' : moveEntries Sim.initial [true] = firstEntries.filter LogEntry.isMove := by
    decide +kernel
  rw [hmoves] at hlog
  rw [hmoves'] at hlog'
  exact ⟨s, s', hs, hs', (log_determines_run [false] [true] s s' firstEntries firstEntries l l
    hs hs' hlog hlog' hl hl (fun level => by cases level <;> decide)
    (fun level => by cases level <;> decide) rfl).2⟩

end Modellbahn
