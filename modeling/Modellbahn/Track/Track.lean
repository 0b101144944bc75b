import Modellbahn.Expansion.Controller

/-!
# Tracks

The model of `track/trackid.hpp`, `track/track.hpp`, `track/straight.hpp` and `track/switch.hpp`.
A track has the members of the base class `track` and the piece of its derived class, a `Straight`
or a `SwitchTrack`; the virtual functions `next_track`, `next_tracks` and `make_way_to` choose
between the two pieces. Only `powerstate` and the state of a switch change at run time.

## Main definitions

* `Modellbahn.TrackId`: the values of `enum class trackid`, whose underlying type is `int`.
* `Modellbahn.Straight`, `Modellbahn.SwitchTrack`, `Modellbahn.Piece`, `Modellbahn.Track`.
* `Modellbahn.Track.nextTrack`, `Modellbahn.Track.nextTracks`, `Modellbahn.Track.makeWayTo`.
-/

namespace Modellbahn

/-- The values of `enum class trackid`. No arithmetic is done on them, so that an unbounded integer
stands for the underlying `int`. -/
abbrev TrackId := ℤ

namespace TrackId

/-- `trackid::INVALID`. -/
def INVALID : TrackId := -1

/-! The enumerators of `trackid`, in their order. -/

def A_d : TrackId := 0
def A_c : TrackId := 1
def A_1a : TrackId := 2
def A_1b : TrackId := 3
def A_a : TrackId := 4
def A_2a : TrackId := 5
def A_2b : TrackId := 6
def A_b : TrackId := 7
def A_3a : TrackId := 8
def A_3b : TrackId := 9
def B_1a : TrackId := 10
def C_a : TrackId := 11
def C_1a : TrackId := 12
def C_1b : TrackId := 13
def C_2a : TrackId := 14
def C_2b : TrackId := 15
def C_b : TrackId := 16
def C_c : TrackId := 17
def C_3a : TrackId := 18
def C_3b : TrackId := 19
def C_3c : TrackId := 20
def D_1a : TrackId := 21

end TrackId

open TrackId

/-- `enum class power`. -/
inductive Power
  | off
  | on
  deriving DecidableEq, Repr

/-- `enum class track_type`. -/
inductive TrackType
  | straight
  | switch
  | unknown
  deriving DecidableEq, Repr

/-- `enum class switch_state`. -/
inductive SwitchState
  | straight
  | curved
  | unknown
  deriving DecidableEq, Repr

/-- The ways out of a track, a `std::array<trackid, 3>`. -/
abbrev Ways := Vector TrackId 3

/-- `{trackid::INVALID, trackid::INVALID, trackid::INVALID}` -/
def noWays : Ways := #v[INVALID, INVALID, INVALID]

/-- `ways[0]`, which is `INVALID` where there is no way. -/
def Ways.first (ways : Ways) : TrackId := ways[0]

/-- `ways[1]`, which is `INVALID` where there is only one way. -/
def Ways.second (ways : Ways) : TrackId := ways[1]

/-- Membership among the ways, by the list of them, which evaluates. -/
instance (n : TrackId) (ways : Ways) : Decidable (n ∈ ways) :=
  decidable_of_iff (n ∈ ways.toList) Vector.mem_toList_iff

/-! ### Straight pieces -/

/-- The members of `straight`. -/
structure Straight where
  trackA : TrackId
  trackB : TrackId
  deriving DecidableEq, Repr

namespace Straight

/-- `straight::next_track`. -/
def nextTrack (s : Straight) (previous : TrackId) : TrackId :=
  if previous = s.trackA then s.trackB
  else if previous = s.trackB then s.trackA
  else INVALID

/-- `straight::next_tracks`. -/
def nextTracks (s : Straight) (previous : TrackId) : Ways :=
  if previous = s.trackA then #v[s.trackB, INVALID, INVALID]
  else if previous = s.trackB then #v[s.trackA, INVALID, INVALID]
  else noWays

end Straight

/-! ### Switches -/

/-- The members of `switch_track`. -/
structure SwitchTrack where
  state : SwitchState
  trackA : TrackId
  trackB : TrackId
  trackCommon : TrackId
  straight : IoPosition
  curved : IoPosition
  deriving DecidableEq, Repr

namespace SwitchTrack

/-- `switch_track::next_track`. Coming from the common end of a switch in an unknown state, no
branch returns and the function falls through to `INVALID`. -/
def nextTrack (s : SwitchTrack) (previous : TrackId) : TrackId :=
  if previous = s.trackCommon then
    match s.state with
    | .straight => s.trackA
    | .curved => s.trackB
    | .unknown => INVALID
  else if previous = s.trackA ∨ previous = s.trackB then s.trackCommon
  else INVALID

/-- `switch_track::next_tracks`. -/
def nextTracks (s : SwitchTrack) (previous : TrackId) : Ways :=
  if previous = s.trackCommon then #v[s.trackA, s.trackB, INVALID]
  else if previous = s.trackA ∨ previous = s.trackB then #v[s.trackCommon, INVALID, INVALID]
  else noWays

/-- The assignment to `state` in a branch of `make_way_to`, where `leg` is the end that is not the
common one. The state stays where `leg` is neither of the two legs. -/
def setLeg (s : SwitchTrack) (leg : TrackId) : SwitchTrack :=
  if leg = s.trackA then { s with state := .straight }
  else if leg = s.trackB then { s with state := .curved }
  else s

/-- `switch_track::make_way_to`: its result and the switch it leaves. -/
def makeWayTo (s : SwitchTrack) (dest source : TrackId) : Bool × SwitchTrack :=
  if source = s.trackCommon then (true, s.setLeg dest)
  else if dest = s.trackCommon then (true, s.setLeg source)
  else (false, s)

end SwitchTrack

/-! ### Tracks of both kinds -/

/-- The derived class of a track. -/
inductive Piece
  | straight (s : Straight)
  | switchTrack (s : SwitchTrack)
  deriving DecidableEq, Repr

namespace Piece

/-- The virtual function `next_track`. -/
def nextTrack : Piece → TrackId → TrackId
  | straight s, previous => s.nextTrack previous
  | switchTrack s, previous => s.nextTrack previous

/-- The virtual function `next_tracks`. -/
def nextTracks : Piece → TrackId → Ways
  | straight s, previous => s.nextTracks previous
  | switchTrack s, previous => s.nextTracks previous

/-- The virtual function `make_way_to`. A straight piece inherits `track::make_way_to`, which
ignores both ids. -/
def makeWayTo : Piece → (dest source : TrackId) → Bool × Piece
  | straight s, _, _ => (true, straight s)
  | switchTrack s, dest, source =>
    ((s.makeWayTo dest source).1, switchTrack (s.makeWayTo dest source).2)

/-- The ids of the tracks connected to the piece. -/
def connections : Piece → List TrackId
  | straight s => [s.trackA, s.trackB]
  | switchTrack s => [s.trackA, s.trackB, s.trackCommon]

/-- The piece as its constructor makes it, the state of a switch unknown. -/
def constructed : Piece → Piece
  | straight s => straight s
  | switchTrack s => switchTrack { s with state := .unknown }

/-- The virtual function `type`. -/
def type : Piece → TrackType
  | straight _ => .straight
  | switchTrack _ => .switch

end Piece

/-- A track: the members of the base class `track` and the piece. -/
structure Track where
  id : TrackId
  powerPos : IoPosition
  powerstate : Power
  piece : Piece
  deriving DecidableEq, Repr

namespace Track

/-- `std::make_shared<straight>(id, power_pos, track_a, track_b)`. -/
def makeStraight (id : TrackId) (powerPos : IoPosition) (trackA trackB : TrackId) : Track where
  id := id
  powerPos := powerPos
  powerstate := .off
  piece := .straight { trackA := trackA, trackB := trackB }

/-- `std::make_shared<switch_track>(id, power_pos, track_a, track_b, track_common, straight,
curved)`. -/
def makeSwitch (id : TrackId) (powerPos : IoPosition) (trackA trackB trackCommon : TrackId)
    (straight curved : IoPosition) : Track where
  id := id
  powerPos := powerPos
  powerstate := .off
  piece := .switchTrack
    { state := .unknown, trackA := trackA, trackB := trackB, trackCommon := trackCommon,
      straight := straight, curved := curved }

/-- `type` of a track. -/
def type (t : Track) : TrackType := t.piece.type

/-- `next_track` of a track. -/
def nextTrack (t : Track) (previous : TrackId) : TrackId := t.piece.nextTrack previous

/-- `next_tracks` of a track. -/
def nextTracks (t : Track) (previous : TrackId) : Ways := t.piece.nextTracks previous

/-- `make_way_to` of a track: its result and the track it leaves. -/
def makeWayTo (t : Track) (dest source : TrackId) : Bool × Track :=
  ((t.piece.makeWayTo dest source).1, { t with piece := (t.piece.makeWayTo dest source).2 })

/-- The ids of the tracks connected to a track. -/
def connections (t : Track) : List TrackId := t.piece.connections

end Track

end Modellbahn
