import Modellbahn.Expansion.Image
import Modellbahn.Track.Layout

/-!
# The simulation loop

The model of the fiber in `src/simulation.cpp`. One pass of its loop, up to the sleep at its end, is
`iteration`: it asks the current track for the ways on, sets and takes one of them, moves the power
from the track it leaves to the one it enters, and writes the powers and switch states of all tracks
to the output buffer. The state of the machine is that of the table and of the output buffer at such
a boundary, with the two pointers of the loop as indices of the table.

The value of the button is an input of the pass, read or not. The blue LED is left out.

## Main definitions

* `Modellbahn.Sim`: the state of the loop.
* `Modellbahn.iteration`, `Modellbahn.simulate`: one pass, and one with each of a list of readings.
* `Modellbahn.Sim.initial`: the state in which the firmware starts.
-/

namespace Modellbahn

open TrackId

/-- `tracks[static_cast<int>(id)]` as an index of a table of `n` tracks, or `none` where the access
is out of range. -/
def TrackId.index? (n : ℕ) (id : TrackId) : Option (Fin n) :=
  if h : 0 ≤ id ∧ id.toNat < n then some ⟨id.toNat, h.2⟩ else none

/-- The table with the track `i` changed by `f`. -/
def updateTrack {n : ℕ} (tracks : Vector Track n) (i : Fin n) (f : Track → Track) :
    Vector Track n :=
  tracks.set i (f (tracks.get i)) i.isLt

/-- The state of the loop: the table, the pointers `last_track` and `current_track`, and the output
buffer with the log. -/
structure Sim (bs : BoardTable) (n : ℕ) where
  tracks : Vector Track n
  lastTrack : Fin n
  currentTrack : Fin n
  out : Output bs
  deriving DecidableEq

namespace Sim

variable {bs : BoardTable} {n : ℕ}

/-- `*last_track`. -/
def last (s : Sim bs n) : Track := s.tracks.get s.lastTrack

/-- `*current_track`. -/
def current (s : Sim bs n) : Track := s.tracks.get s.currentTrack

/-- `possible_ways`. -/
def possibleWays (s : Sim bs n) : Ways := s.current.nextTracks s.last.id

/-- `select`: the second way where there is one and the button is pressed, the first one
otherwise. -/
def select (s : Sim bs n) (button : Bool) : TrackId :=
  if s.possibleWays.second ≠ INVALID then
    if button then s.possibleWays.second else s.possibleWays.first
  else s.possibleWays.first

/-- `current_track->make_way_to(select, last_track->id)`; the loop drops the result. -/
def makeWay (s : Sim bs n) (select : TrackId) : Sim bs n :=
  { s with tracks := updateTrack s.tracks s.currentTrack fun t => (t.makeWayTo select s.last.id).2 }

/-- `next_id`. -/
def nextId (s : Sim bs n) : TrackId := s.current.nextTrack s.last.id

/-- The line logged when `possible_ways` is empty. -/
def notFoundLine (s : Sim bs n) : LogLine where
  level := .error
  items := [.text "Next track not found ", .number s.current.id, .text " comming from ",
    .number s.last.id]

/-- The line logged in every pass. -/
def moveLine (s : Sim bs n) (next : Fin n) : LogLine where
  level := .info
  items := [.text "Current: ", .number s.current.id, .text "\tNext:  ",
    .number (s.tracks.get next).id, .text "\tLast:  ", .number s.last.id]

/-- The move to `next`: the log line, the two pointers and the two powers. -/
def moveTo (s : Sim bs n) (next : Fin n) : Sim bs n where
  tracks := updateTrack (updateTrack s.tracks s.currentTrack fun t => { t with powerstate := .off })
    next fun t => { t with powerstate := .on }
  lastTrack := s.currentTrack
  currentTrack := next
  out := { s.out with log := s.out.log ++ [s.moveLine next] }

end Sim

/-! ### The output loop -/

/-- The calls of `set_buffer` for the state of a switch, none where it is unknown. -/
def SwitchTrack.outputCalls (s : SwitchTrack) : List (IoPosition × Bool) :=
  match s.state with
  | .straight => [(s.straight, true), (s.curved, false)]
  | .curved => [(s.straight, false), (s.curved, true)]
  | .unknown => []

/-- The calls of `set_buffer` for the piece of a track. -/
def Piece.outputCalls : Piece → List (IoPosition × Bool)
  | straight _ => []
  | switchTrack s => s.outputCalls

/-- The calls of `set_buffer` for one track. -/
def Track.outputCalls (t : Track) : List (IoPosition × Bool) :=
  (t.powerPos, t.powerstate = .on) :: t.piece.outputCalls

/-- The calls of `set_buffer` of the output loop, in their order. -/
def outputCalls {n : ℕ} (tracks : Vector Track n) : List (IoPosition × Bool) :=
  tracks.toList.flatMap Track.outputCalls

/-! ### One pass -/

variable {bs : BoardTable} {n : ℕ}

/-- One pass up to the output loop. -/
def advance (s : Sim bs n) (button : Bool) : Except Stop (Sim bs n) :=
  if s.possibleWays.first = INVALID then .error (.nextTrackNotFound s.notFoundLine)
  else
    match TrackId.index? n (s.makeWay (s.select button)).nextId with
    | none => .error .outOfRange
    | some next => .ok ((s.makeWay (s.select button)).moveTo next)

/-- One pass of the loop, with the value of the button. -/
def iteration (s : Sim bs n) (button : Bool) : Except Stop (Sim bs n) :=
  match advance s button with
  | .error e => .error e
  | .ok s => (setBuffers s.out (outputCalls s.tracks)).map fun out => { s with out := out }

/-- The loop, for one pass with each reading of the button. -/
def simulate (s : Sim bs n) (readings : List Bool) : Except Stop (Sim bs n) :=
  Machine.run iteration s readings

/-- The state before the first pass of the firmware. -/
def Sim.initial : Sim boards 22 where
  tracks := Modellbahn.tracks
  lastTrack := ⟨A_1a.toNat, by decide⟩
  currentTrack := ⟨A_1b.toNat, by decide⟩
  out := Output.initial boards

end Modellbahn
