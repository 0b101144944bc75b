import Modellbahn.Expansion.Offset
import Modellbahn.Foundation.Machine
import Modellbahn.Foundation.PackedBits
import Modellbahn.Foundation.WriteLog

/-!
# The output buffer as a map from outputs to bits

`set_buffer` accepts the positions on a board of the table whose byte is among the outputs of that
board (`Accepted`). Every accepted position has its own bit of `out_buffer`, at `address`: the slots
of the boards are disjoint, and a bit position is determined by its byte and its bit in that byte.
So `set_buffer` updates one cell of the memory of bits of the buffer, or only logs an error, and a
list of calls is a log of writes to that memory (`exists_setBuffers`).

## Main definitions

* `Modellbahn.Accepted`, `Modellbahn.bitAddress`, `Modellbahn.Output.bit`.
* `Modellbahn.address`: the bit of a position, by sums of natural numbers.
* `Modellbahn.setBuffers`: a list of calls of `set_buffer`.

## Main results

* `Modellbahn.address_injective`: distinct accepted positions have distinct bits.
* `Modellbahn.setBuffer_of_accepted`, `Modellbahn.setBuffer_of_not_accepted`: one call.
* `Modellbahn.setBuffer_refines_positionMap`: any list of calls.
-/

namespace Modellbahn

open PackedBits

/-! ### Positions and their bits -/

/-- The positions that `set_buffer` does not reject. -/
def Accepted (bs : BoardTable) (pos : IoPosition) : Prop :=
  ∃ b, bs.get? pos.board = some b ∧ pos.byteInBoard < b.outputs

instance (bs : BoardTable) (pos : IoPosition) : Decidable (Accepted bs pos) :=
  decidable_of_iff (∃ b ∈ bs.get? pos.board, pos.byteInBoard < b.outputs) Iff.rfl

/-- The byte and the bit of `out_buffer` that `set_buffer` addresses for `pos`. -/
def bitAddress (bs : BoardTable) (pos : IoPosition) : Except Stop (ℕ × ℕ) :=
  (bufferIndex bs pos).map fun i => (i.toNat, pos.bitInByte.toNat)

/-- The bit of `out_buffer` for `pos`. -/
def Output.bit {bs : BoardTable} (out : Output bs) (pos : IoPosition) : Except Stop Bool :=
  (bitAddress bs pos).map (image out.outBuffer)

/-- The bit of `pos`, where the sums of the code do not wrap around. -/
def address (bs : BoardTable) (pos : IoPosition) : ℕ × ℕ :=
  (bs.slotStart pos.board.toNat + pos.byteInBoard.toNat, pos.bitInByte.toNat)

variable {bs : BoardTable}

theorem IoPosition.toNat_setWidth_bitPos (pos : IoPosition) :
    (pos.bitPos.setWidth 32).toNat = pos.bitPos.toNat := by
  rw [BitVec.toNat_setWidth, Nat.mod_eq_of_lt (pos.bitPos.isLt.trans (by decide))]

theorem IoPosition.toNat_byteInBoard (pos : IoPosition) :
    pos.byteInBoard.toNat = pos.bitPos.toNat / 8 := by
  rw [IoPosition.byteInBoard, BitVec.toNat_udiv, pos.toNat_setWidth_bitPos]
  rfl

theorem IoPosition.toNat_bitInByte (pos : IoPosition) :
    pos.bitInByte.toNat = pos.bitPos.toNat % 8 := by
  rw [IoPosition.bitInByte, BitVec.toNat_umod, pos.toNat_setWidth_bitPos]
  rfl

theorem IoPosition.bitInByte_lt (pos : IoPosition) : pos.bitInByte.toNat < 8 := by
  rw [pos.toNat_bitInByte]
  exact Nat.mod_lt _ (by decide)

theorem Board.outputs_le_bufferSize (b : Board) : b.outputs ≤ b.bufferSize := by
  rw [Board.bufferSize]
  split_ifs with h
  · exact BitVec.le_refl _
  · exact BitVec.not_lt.mp h

theorem Accepted.board_lt {pos : IoPosition} (h : Accepted bs pos) :
    pos.board.toNat < bs.toList.length := by
  obtain ⟨b, hb, -⟩ := h
  exact (List.getElem?_eq_some_iff.mp hb).1

/-- The byte of an accepted position lies in the slot of its board. -/
theorem Accepted.address_lt_slotEnd {pos : IoPosition} (h : Accepted bs pos) :
    (address bs pos).1 < bs.slotEnd pos.board.toNat := by
  obtain ⟨b, hb, hlt⟩ := h
  have hle := BitVec.le_def.mp b.outputs_le_bufferSize
  have hlt' := BitVec.lt_def.mp hlt
  rw [bs.slotEnd_eq hb]
  simp only [address]
  omega

theorem Accepted.address_lt_totalSize {pos : IoPosition} (h : Accepted bs pos) :
    (address bs pos).1 < bs.totalSize :=
  h.address_lt_slotEnd.trans_le (bs.slotEnd_le_totalSize _)

/-- The slot of a later board ends before the slot of an earlier one starts. -/
theorem address_lt_of_board_lt {p q : IoPosition} (hq : Accepted bs q)
    (hlt : p.board.toNat < q.board.toNat) : (address bs q).1 < (address bs p).1 :=
  calc (address bs q).1 < bs.slotEnd q.board.toNat := hq.address_lt_slotEnd
    _ ≤ bs.slotEnd (p.board.toNat + 1) := bs.slotEnd_antitone hlt
    _ ≤ (address bs p).1 := Nat.le_add_right _ _

/-- **No two accepted positions share a bit.** -/
theorem address_injective {p q : IoPosition} (hp : Accepted bs p) (hq : Accepted bs q)
    (h : address bs p = address bs q) : p = q := by
  have hboard : p.board.toNat = q.board.toNat := by
    rcases Nat.lt_trichotomy p.board.toNat q.board.toNat with hlt | heq | hlt
    · exact absurd (congrArg Prod.fst h).symm (address_lt_of_board_lt hq hlt).ne
    · exact heq
    · exact absurd (congrArg Prod.fst h) (address_lt_of_board_lt hp hlt).ne
  obtain ⟨hbyte, hbit⟩ := Prod.mk.inj h
  rw [hboard, p.toNat_byteInBoard, q.toNat_byteInBoard] at hbyte
  rw [p.toNat_bitInByte, q.toNat_bitInByte] at hbit
  obtain ⟨pb, pp⟩ := p
  obtain ⟨qb, qp⟩ := q
  congr 1
  · exact BitVec.eq_of_toNat_eq hboard
  · refine BitVec.eq_of_toNat_eq ?_
    simp only at hbyte hbit
    omega

/-- The index computed by the code is the byte of `address`. -/
theorem bufferIndex_eq (hfit : bs.Fits) {pos : IoPosition} (h : Accepted bs pos) :
    ∃ i, bufferIndex bs pos = .ok i ∧ i.toNat = (address bs pos).1 := by
  obtain ⟨offset, hoffset, htoNat⟩ := calculateBufferOffset_eq hfit h.board_lt
  refine ⟨offset + pos.byteInBoard, by rw [bufferIndex, hoffset], ?_⟩
  have hlt := h.address_lt_totalSize
  have hfit' : bs.totalSize < 2 ^ 32 := hfit
  simp only [address] at hlt ⊢
  rw [BitVec.toNat_add, htoNat, Nat.mod_eq_of_lt (by omega)]

theorem bitAddress_eq (hfit : bs.Fits) {pos : IoPosition} (h : Accepted bs pos) :
    bitAddress bs pos = .ok (address bs pos) := by
  obtain ⟨i, hi, htoNat⟩ := bufferIndex_eq hfit h
  rw [bitAddress, hi]
  change Except.ok (i.toNat, _) = _
  rw [htoNat]
  rfl

theorem Output.bit_eq (hfit : bs.Fits) {pos : IoPosition} (h : Accepted bs pos)
    (out : Output bs) : out.bit pos = .ok (image out.outBuffer (address bs pos)) := by
  rw [Output.bit, bitAddress_eq hfit h]
  rfl

/-! ### One call -/

/-- The masks of `set_buffer` have one bit. -/
theorem maskByte_eq_writeBit (pos : IoPosition) (state : Bool) (byte : Byte) :
    maskByte pos state byte = writeBit byte pos.bitInByte.toNat state := by
  have hmask : ((1 : BitVec 32) <<< pos.bitInByte).setWidth 8 =
      BitVec.twoPow 8 pos.bitInByte.toNat := by
    refine BitVec.eq_of_getLsbD_eq fun j hj => ?_
    rw [BitVec.shiftLeft_eq', BitVec.getLsbD_setWidth, BitVec.getLsbD_shiftLeft,
      BitVec.getLsbD_twoPow]
    have := pos.bitInByte_lt
    by_cases h : pos.bitInByte.toNat = j
    · simp [h, hj, show j < 32 by omega]
    · have : ¬ j - pos.bitInByte.toNat = 0 ∨ j < pos.bitInByte.toNat := by omega
      simp [h, hj]
      omega
  rw [maskByte, writeBit, BitVec.setWidth_not (by decide), hmask]

/-- **An accepted call** writes the bit of its position and nothing else. -/
theorem setBuffer_of_accepted (hfit : bs.Fits) {pos : IoPosition} (h : Accepted bs pos)
    (out : Output bs) (state : Bool) :
    ∃ out', setBuffer out pos state = .ok out' ∧ out'.log = out.log ∧
      image out'.outBuffer = Function.update (image out.outBuffer) (address bs pos) state := by
  obtain ⟨i, hi, htoNat⟩ := bufferIndex_eq hfit h
  have hlt : i.toNat < (calculateBufferSize bs).toNat := by
    rw [htoNat, toNat_calculateBufferSize hfit]
    exact h.address_lt_totalSize
  have hboard : pos.board < bs.size := bs.lt_size_iff.mpr h.board_lt
  obtain ⟨b, hb, hout⟩ := h
  have haddr : address bs pos = (i.toNat, pos.bitInByte.toNat) := by
    rw [htoNat]
    rfl
  refine ⟨{ out with
    outBuffer := out.outBuffer.set i.toNat (maskByte pos state out.outBuffer[i.toNat]) },
    ?_, rfl, ?_⟩
  · simp only [setBuffer, if_pos hboard, hb, if_pos hout, hi, dif_pos hlt]
  · rw [haddr, maskByte_eq_writeBit, image_set_writeBit _ hlt pos.bitInByte_lt]

/-- **A rejected call** logs an error and leaves the buffer alone. -/
theorem setBuffer_of_not_accepted {pos : IoPosition} (h : ¬ Accepted bs pos) (out : Output bs)
    (state : Bool) :
    ∃ line, setBuffer out pos state = .ok { out with log := out.log ++ [line] } ∧
      (line = invalidBitPosition pos ∨ line = invalidBoardPosition pos) := by
  by_cases hboard : pos.board < bs.size
  · have hlt := bs.lt_size_iff.mp hboard
    have hb : bs.get? pos.board = some bs.toList[pos.board.toNat] := List.getElem?_eq_getElem hlt
    have hout : ¬ pos.byteInBoard < bs.toList[pos.board.toNat].outputs := fun hout =>
      h ⟨_, hb, hout⟩
    exact ⟨_, by simp only [setBuffer, if_pos hboard, hb, if_neg hout], Or.inl rfl⟩
  · exact ⟨_, by simp only [setBuffer, if_neg hboard], Or.inr rfl⟩

/-! ### Lists of calls -/

/-- The calls of `set_buffer` of the list, the first one first. -/
def setBuffers (out : Output bs) (calls : List (IoPosition × Bool)) : Except Stop (Output bs) :=
  Machine.run (fun out call => setBuffer out call.1 call.2) out calls

/-- The bits written by a list of calls, the rejected calls dropped. -/
def writes (bs : BoardTable) (calls : List (IoPosition × Bool)) : List ((ℕ × ℕ) × Bool) :=
  (calls.filter fun call => Accepted bs call.1).map fun call => (address bs call.1, call.2)

theorem writes_cons (call : IoPosition × Bool) (calls : List (IoPosition × Bool)) :
    writes bs (call :: calls) = writes bs [call] ++ writes bs calls := by
  rw [writes, writes, writes, ← List.map_append, ← List.filter_append]
  rfl

theorem writes_singleton (call : IoPosition × Bool) :
    writes bs [call] = if Accepted bs call.1 then [(address bs call.1, call.2)] else [] := by
  by_cases h : Accepted bs call.1 <;> simp [writes, h]

theorem writes_eq_map {calls : List (IoPosition × Bool)} (h : ∀ call ∈ calls, Accepted bs call.1) :
    writes bs calls = calls.map fun call => (address bs call.1, call.2) := by
  rw [writes, List.filter_eq_self.mpr fun call hcall => by simpa using h call hcall]

/-- The effect of one call on the bits, accepted or not. -/
theorem exists_setBuffer (hfit : bs.Fits) (out : Output bs) (call : IoPosition × Bool) :
    ∃ out', setBuffer out call.1 call.2 = .ok out' ∧
      image out'.outBuffer = WriteLog.apply (image out.outBuffer) (writes bs [call]) := by
  rw [writes_singleton]
  by_cases h : Accepted bs call.1
  · obtain ⟨out', hout', -, himage⟩ := setBuffer_of_accepted hfit h out call.2
    refine ⟨out', hout', ?_⟩
    rw [if_pos h, himage]
    rfl
  · obtain ⟨line, hout', -⟩ := setBuffer_of_not_accepted h out call.2
    refine ⟨_, hout', ?_⟩
    rw [if_neg h]
    rfl

theorem image_of_setBuffer (hfit : bs.Fits) {out out' : Output bs} {call : IoPosition × Bool}
    (h : setBuffer out call.1 call.2 = .ok out') :
    image out'.outBuffer = WriteLog.apply (image out.outBuffer) (writes bs [call]) := by
  obtain ⟨out₁, hout₁, himage⟩ := exists_setBuffer hfit out call
  rw [← himage, Except.ok.inj (hout₁.symm.trans h)]

/-- **The buffer refines a memory of bits.** A list of calls succeeds, and its effect on the bits
is that of its writes. -/
theorem exists_setBuffers (hfit : bs.Fits) (out : Output bs) (calls : List (IoPosition × Bool)) :
    ∃ out', setBuffers out calls = .ok out' ∧
      image out'.outBuffer = WriteLog.apply (image out.outBuffer) (writes bs calls) := by
  induction calls generalizing out with
  | nil => exact ⟨out, rfl, rfl⟩
  | cons call calls ih =>
    obtain ⟨out₁, hout₁, himage⟩ := exists_setBuffer hfit out call
    obtain ⟨out', hout', himage'⟩ := ih out₁
    refine ⟨out', (Machine.run_cons_of_ok hout₁ calls).trans hout', ?_⟩
    rw [himage', himage, writes_cons call calls, WriteLog.apply_append]

/-- The values written to the bit of an accepted position are those of the calls with it. -/
theorem valuesAt_writes {pos : IoPosition} (h : Accepted bs pos)
    (calls : List (IoPosition × Bool)) :
    WriteLog.valuesAt (address bs pos) (writes bs calls) = WriteLog.valuesAt pos calls := by
  have hiff : ∀ call : IoPosition × Bool,
      (Accepted bs call.1 ∧ address bs call.1 = address bs pos) ↔ call.1 = pos := fun call =>
    ⟨fun hc => address_injective hc.1 h hc.2, fun hc => by rw [hc]; exact ⟨h, rfl⟩⟩
  simp only [WriteLog.valuesAt, writes, List.filter_map, List.map_map, List.filter_filter]
  congr 1
  refine List.filter_congr fun call _ => ?_
  rw [← decide_eq_decide.mpr (hiff call), Bool.decide_and, Bool.and_comm]
  rfl

theorem valuesAt_writes_eq_nil {cell : ℕ × ℕ} (h : ∀ pos, Accepted bs pos → address bs pos ≠ cell)
    (calls : List (IoPosition × Bool)) : WriteLog.valuesAt cell (writes bs calls) = [] := by
  refine WriteLog.valuesAt_eq_nil fun w hw => ?_
  obtain ⟨call, hcall, rfl⟩ := List.mem_map.mp hw
  exact h call.1 (by simpa using (List.mem_filter.mp hcall).2)

/-- **`set_buffer` refines a map from outputs to bits.** For every table whose total size fits in a
`size_t`: an accepted position has its own bit in the buffer; a rejected call leaves the buffer
unchanged; and after any list of calls on a new controller the bit of an accepted position is the
state of the last call with that position, every bit of no accepted position is `0`, and every list
with the same calls in the same order on each single position leaves the same buffer. -/
theorem setBuffer_refines_positionMap (hfit : bs.Fits) :
    (∀ p, Accepted bs p → ∃ cell, bitAddress bs p = .ok cell ∧
      cell.1 < (calculateBufferSize bs).toNat) ∧
    (∀ p q, Accepted bs p → Accepted bs q → p ≠ q → bitAddress bs p ≠ bitAddress bs q) ∧
    (∀ (out : Output bs) (p : IoPosition) (state : Bool), ¬ Accepted bs p →
      ∃ out', setBuffer out p state = .ok out' ∧ out'.outBuffer = out.outBuffer) ∧
    ∀ calls, ∃ out, setBuffers (Output.initial bs) calls = .ok out ∧
      (∀ p, Accepted bs p → out.bit p = .ok (WriteLog.lastWrite false p calls)) ∧
      (∀ cell, (∀ p, Accepted bs p → bitAddress bs p ≠ .ok cell) →
        image out.outBuffer cell = false) ∧
      ∀ calls', (∀ p, WriteLog.valuesAt p calls' = WriteLog.valuesAt p calls) →
        ∃ out', setBuffers (Output.initial bs) calls' = .ok out' ∧
          out'.outBuffer = out.outBuffer := by
  refine ⟨fun p hp => ?_, fun p q hp hq hne heq => ?_, fun out p state hp => ?_, fun calls => ?_⟩
  · refine ⟨address bs p, bitAddress_eq hfit hp, ?_⟩
    rw [toNat_calculateBufferSize hfit]
    exact hp.address_lt_totalSize
  · rw [bitAddress_eq hfit hp, bitAddress_eq hfit hq] at heq
    exact hne (address_injective hp hq (Except.ok.inj heq))
  · obtain ⟨line, hout', -⟩ := setBuffer_of_not_accepted hp out state
    exact ⟨_, hout', rfl⟩
  · obtain ⟨out, hout, himage⟩ := exists_setBuffers hfit (Output.initial bs) calls
    have hinit : image (Output.initial bs).outBuffer = fun _ => false := image_replicate_zero
    rw [hinit] at himage
    refine ⟨out, hout, fun p hp => ?_, fun cell hcell => ?_, fun calls' hcalls => ?_⟩
    · rw [Output.bit_eq hfit hp, himage, WriteLog.apply_eq_lastWrite, WriteLog.lastWrite,
        valuesAt_writes hp, WriteLog.lastWrite]
    · have hcell' : ∀ pos, Accepted bs pos → address bs pos ≠ cell := fun pos hpos he =>
        hcell pos hpos (by rw [bitAddress_eq hfit hpos, he])
      rw [himage, WriteLog.apply_eq_lastWrite, WriteLog.lastWrite, valuesAt_writes_eq_nil hcell']
      rfl
    · obtain ⟨out', hout', himage'⟩ := exists_setBuffers hfit (Output.initial bs) calls'
      rw [hinit] at himage'
      refine ⟨out', hout', image_injective ?_⟩
      rw [himage, himage']
      refine WriteLog.apply_congr _ fun cell => ?_
      by_cases hcell : ∃ pos, Accepted bs pos ∧ address bs pos = cell
      · obtain ⟨pos, hpos, rfl⟩ := hcell
        rw [valuesAt_writes hpos, valuesAt_writes hpos, hcalls pos]
      · have hcell' : ∀ pos, Accepted bs pos → address bs pos ≠ cell := fun pos hpos he =>
          hcell ⟨pos, hpos, he⟩
        rw [valuesAt_writes_eq_nil hcell', valuesAt_writes_eq_nil hcell']

theorem setBuffer_refines_positionMap_boards :
    (∀ p, Accepted boards p → ∃ cell, bitAddress boards p = .ok cell ∧
      cell.1 < (calculateBufferSize boards).toNat) ∧
    (∀ p q, Accepted boards p → Accepted boards q → p ≠ q →
      bitAddress boards p ≠ bitAddress boards q) ∧
    (∀ (out : Output boards) (p : IoPosition) (state : Bool), ¬ Accepted boards p →
      ∃ out', setBuffer out p state = .ok out' ∧ out'.outBuffer = out.outBuffer) ∧
    ∀ calls, ∃ out, setBuffers (Output.initial boards) calls = .ok out ∧
      (∀ p, Accepted boards p → out.bit p = .ok (WriteLog.lastWrite false p calls)) ∧
      (∀ cell, (∀ p, Accepted boards p → bitAddress boards p ≠ .ok cell) →
        image out.outBuffer cell = false) ∧
      ∀ calls', (∀ p, WriteLog.valuesAt p calls' = WriteLog.valuesAt p calls) →
        ∃ out', setBuffers (Output.initial boards) calls' = .ok out' ∧
          out'.outBuffer = out.outBuffer :=
  setBuffer_refines_positionMap boards_fits

end Modellbahn
