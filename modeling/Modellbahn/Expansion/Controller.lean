import Modellbahn.Basic
import Mathlib.Data.Vector.Basic

/-!
# Expansion boards and the output buffer

The model of `expansion/controller.hpp`: the table of expansion boards, the position of a board in
the shared output buffer, and `set_buffer`, which switches one output by a read-modify-write of one
byte of that buffer.

The functions take the board table as an argument, so that the results hold for every table;
`boards` is the table of the firmware. A `BoardTable` is a `std::array<board, N>`, whose length `N`
is a `size_t`; nothing bounds the sum of its sizes, which the code adds up modulo `2 ^ 32`.

## Main definitions

* `Modellbahn.IoPosition`, `Modellbahn.Board`, `Modellbahn.BoardTable`, `Modellbahn.boards`.
* `Modellbahn.calculateBufferSize`, `Modellbahn.calculateBufferOffset`: the layout of the buffer.
* `Modellbahn.Output`, `Modellbahn.setBuffer`: the buffer, and the switching of one output.
-/

namespace Modellbahn

/-- `struct ioposition`: an output, as a board and a bit of that board. -/
structure IoPosition where
  board : SizeT
  bitPos : Byte
  deriving DecidableEq, Repr

namespace IoPosition

/-- `bit_pos / 8`, computed in `int` and read as a `size_t`. -/
def byteInBoard (pos : IoPosition) : SizeT := pos.bitPos.setWidth 32 / 8

/-- `bit_pos % 8`, computed in `int`. -/
def bitInByte (pos : IoPosition) : SizeT := pos.bitPos.setWidth 32 % 8

end IoPosition

/-- `struct board`: the numbers of input and output bytes of an expansion board. -/
structure Board where
  inputs : SizeT
  outputs : SizeT
  deriving DecidableEq, Repr

/-- `board::buffer_size`, the larger of the two numbers. -/
def Board.bufferSize (b : Board) : SizeT := if b.inputs < b.outputs then b.outputs else b.inputs

/-- A `std::array<board, N>`. -/
structure BoardTable where
  toList : List Board
  length_lt : toList.length < 2 ^ 32

namespace BoardTable

/-- `boards.size()`. -/
def size (bs : BoardTable) : SizeT := BitVec.ofNat 32 bs.toList.length

/-- `boards[i]`, or `none` where the access is out of range. -/
def get? (bs : BoardTable) (i : SizeT) : Option Board := bs.toList[i.toNat]?

end BoardTable

/-- `board_a`: no input and one byte of outputs. -/
def boardA : Board := { inputs := 0, outputs := 1 }

/-- The table of the firmware. -/
def boards : BoardTable where
  toList := [boardA, boardA, boardA, boardA, boardA, boardA, boardA]
  length_lt := by decide

/-! ### The layout of the buffer -/

/-- `calculate_buffer_size`. -/
def calculateBufferSize (bs : BoardTable) : SizeT :=
  bs.toList.foldl (fun size b => size + b.bufferSize) 0

/-- One pass of the loop of `calculate_buffer_offset` with counter `i`: the loop ends with a result,
or it goes on with the decremented counter and the new sum. -/
def offsetPass (bs : BoardTable) (boardIndex i offset : SizeT) :
    Except Stop (SizeT ⊕ SizeT × SizeT) :=
  if boardIndex ≤ i then
    if i ≤ boardIndex then .ok (.inl offset)
    else
      match bs.get? i with
      | none => .error .outOfRange
      | some b => .ok (.inr (i - 1, offset + b.bufferSize))
  else .ok (.inl offset)

/-- The loop of `calculate_buffer_offset`, for at most `fuel` passes. -/
def offsetLoop (bs : BoardTable) (boardIndex : SizeT) : (fuel : ℕ) → (i offset : SizeT) →
    Except Stop SizeT
  | 0, _, _ => .error .outOfFuel
  | fuel + 1, i, offset =>
    match offsetPass bs boardIndex i offset with
    | .error e => .error e
    | .ok (.inl result) => .ok result
    | .ok (.inr (i, offset)) => offsetLoop bs boardIndex fuel i offset

/-- `calculate_buffer_offset`. The counter starts at `boards.size() - 1`, which wraps around for an
empty table. -/
def calculateBufferOffset (bs : BoardTable) (boardIndex : SizeT) : Except Stop SizeT :=
  offsetLoop bs boardIndex (bs.toList.length + 1) (bs.size - 1) 0

/-! ### Switching one output -/

/-- What `set_buffer` writes to: the member `out_buffer` and the log. -/
structure Output (bs : BoardTable) where
  outBuffer : Vector Byte (calculateBufferSize bs).toNat
  log : List LogLine
  deriving DecidableEq

/-- A new controller: `out_buffer` is all zero and nothing is logged. -/
def Output.initial (bs : BoardTable) : Output bs where
  outBuffer := Vector.replicate _ 0
  log := []

/-- `buffer_index` of `set_buffer`: the byte that holds the output `pos`. -/
def bufferIndex (bs : BoardTable) (pos : IoPosition) : Except Stop SizeT :=
  match calculateBufferOffset bs pos.board with
  | .error e => .error e
  | .ok offset => .ok (offset + pos.byteInBoard)

/-- The new value of the byte that holds `pos`. The masks are computed in `int` and narrowed to
`uint8_t`. -/
def maskByte (pos : IoPosition) (state : Bool) (byte : Byte) : Byte :=
  if state then byte ||| ((1 : BitVec 32) <<< pos.bitInByte).setWidth 8
  else byte &&& (~~~((1 : BitVec 32) <<< pos.bitInByte)).setWidth 8

/-- The log line of a bit position outside the outputs of its board. -/
def invalidBitPosition (pos : IoPosition) : LogLine where
  level := .error
  items := [.text "Invalid bit position: ", .number pos.bitPos.toNat, .text " for board: ",
    .number pos.board.toNat]

/-- The log line of a board outside the table. -/
def invalidBoardPosition (pos : IoPosition) : LogLine where
  level := .error
  items := [.text "Invalid board position: ", .number pos.board.toNat]

/-- `controller::set_buffer`. -/
def setBuffer {bs : BoardTable} (out : Output bs) (pos : IoPosition) (state : Bool) :
    Except Stop (Output bs) :=
  if pos.board < bs.size then
    match bs.get? pos.board with
    | none => .error .outOfRange
    | some b =>
      if pos.byteInBoard < b.outputs then
        match bufferIndex bs pos with
        | .error e => .error e
        | .ok i =>
          if h : i.toNat < (calculateBufferSize bs).toNat then
            .ok { out with
              outBuffer := out.outBuffer.set i.toNat (maskByte pos state out.outBuffer[i.toNat]) }
          else .error .outOfRange
      else .ok { out with log := out.log ++ [invalidBitPosition pos] }
  else .ok { out with log := out.log ++ [invalidBoardPosition pos] }

end Modellbahn
