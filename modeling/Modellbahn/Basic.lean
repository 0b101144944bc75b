import Mathlib.Init

/-!
# Machine types, log lines and ways a computation stops

The firmware runs on a 32-bit microcontroller, so `size_t` has 32 bits and its arithmetic wraps
around. `Except Stop` is the result type of every modelled computation: an access outside an array,
which has no defined behaviour in the source, is an error here and never a default value.

## Main definitions

* `Modellbahn.SizeT`, `Modellbahn.Byte`: the types `size_t` and `uint8_t`.
* `Modellbahn.LogLine`: one statement `MODM_LOG_… << … << modm::endl`, as its operands.
* `Modellbahn.Stop`: why a computation of the firmware has no result.
-/

namespace Modellbahn

/-- The type `size_t` of the target. -/
abbrev SizeT := BitVec 32

/-- The type `uint8_t`. -/
abbrev Byte := BitVec 8

/-- The severity of a log statement. -/
inductive LogLevel
  | error
  | info
  deriving DecidableEq, Repr

/-- One operand of a log statement. -/
inductive LogItem
  | text (s : String)
  | number (value : Int)
  deriving DecidableEq, Repr

/-- The operands of one log statement, without the closing `modm::endl`. -/
structure LogLine where
  level : LogLevel
  items : List LogItem
  deriving DecidableEq, Repr

/-- Why a computation of the firmware ends without a result. -/
inductive Stop
  /-- An access outside the bounds of an array. -/
  | outOfRange
  /-- A loop that has not ended within the passes granted to it. -/
  | outOfFuel
  /-- The `break` of the simulation loop, after its log line. -/
  | nextTrackNotFound (line : LogLine)
  deriving DecidableEq, Repr

end Modellbahn
