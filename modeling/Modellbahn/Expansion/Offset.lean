import Modellbahn.Expansion.Controller
import Modellbahn.Foundation.While
import Mathlib.Algebra.GroupWithZero.Nat
import Mathlib.Algebra.Order.BigOperators.Group.List
import Mathlib.Algebra.Order.Group.Nat

/-!
# The slots of the boards in the output buffer

The boards lie in the output buffer in descending order, each in a slot of `buffer_size()` bytes.
`slotStart bs k` is the first byte of the slot of board `k` as a natural number, the sum of the
sizes of the boards after `k`, and `totalSize bs` the sum of all sizes. Where `totalSize` fits in a
`size_t` (`BoardTable.Fits`), the sums of the code do not wrap around: `calculate_buffer_size` is
`totalSize` (`toNat_calculateBufferSize`) and the loop of `calculate_buffer_offset` ends with
`slotStart` (`calculateBufferOffset_eq`).

The condition `i >= board_index` of that loop never fails; the loop ends with its `break`, which
comes before the unsigned counter could wrap around. This is the invariant `OffsetInv`, kept by each
pass (`OffsetInv.pass`).
-/

namespace Modellbahn

namespace BoardTable

variable (bs : BoardTable)

/-- The sizes of the boards, as natural numbers. -/
def sizes : List ℕ := bs.toList.map fun b => b.bufferSize.toNat

/-- The sum of the sizes of the boards. -/
def totalSize : ℕ := bs.sizes.sum

/-- The total size of the boards is representable in `size_t`. -/
def Fits : Prop := bs.totalSize < 2 ^ 32

instance : Decidable bs.Fits := inferInstanceAs (Decidable (_ < _))

/-- The sum of the sizes of the boards after `k`. -/
def slotStart (k : ℕ) : ℕ := (bs.sizes.drop (k + 1)).sum

/-- The first byte after the slot of board `k`. -/
def slotEnd (k : ℕ) : ℕ := (bs.sizes.drop k).sum

@[simp] theorem length_sizes : bs.sizes.length = bs.toList.length := by simp [sizes]

theorem slotStart_eq_slotEnd_succ (k : ℕ) : bs.slotStart k = bs.slotEnd (k + 1) := rfl

theorem slotEnd_zero : bs.slotEnd 0 = bs.totalSize := by simp [slotEnd, totalSize]

theorem slotEnd_length : bs.slotEnd bs.toList.length = 0 := by
  rw [slotEnd, List.drop_of_length_le bs.length_sizes.le, List.sum_nil]

theorem slotEnd_eq {k : ℕ} {b : Board} (hk : bs.toList[k]? = some b) :
    bs.slotEnd k = bs.slotStart k + b.bufferSize.toNat := by
  obtain ⟨hlt, rfl⟩ := List.getElem?_eq_some_iff.mp hk
  have hlt' : k < bs.sizes.length := by simpa using hlt
  have hsize : bs.sizes[k] = bs.toList[k].bufferSize.toNat := by simp [sizes]
  rw [slotEnd, List.drop_eq_getElem_cons hlt', List.sum_cons, hsize, slotStart, Nat.add_comm]

theorem slotEnd_antitone : Antitone bs.slotEnd := fun k l hkl => by
  have hdrop : bs.sizes.drop l = (bs.sizes.drop k).drop (l - k) := by
    rw [List.drop_drop, Nat.add_sub_cancel' hkl]
  rw [slotEnd, slotEnd, hdrop]
  exact (List.drop_sublist _ _).sum_le_sum fun _ _ => Nat.zero_le _

theorem slotEnd_le_totalSize (k : ℕ) : bs.slotEnd k ≤ bs.totalSize :=
  bs.slotEnd_zero ▸ bs.slotEnd_antitone (Nat.zero_le k)

@[simp] theorem toNat_size : bs.size.toNat = bs.toList.length := by
  rw [size, BitVec.toNat_ofNat, Nat.mod_eq_of_lt bs.length_lt]

theorem lt_size_iff {b : SizeT} : b < bs.size ↔ b.toNat < bs.toList.length := by
  rw [BitVec.lt_def, bs.toNat_size]

end BoardTable

variable {bs : BoardTable}

/-- The table of the firmware has seven bytes of outputs. -/
theorem boards_fits : boards.Fits := by decide

/-- A sum of words that stays below `2 ^ w` does not wrap around. -/
theorem toNat_foldl_add {α : Type} {w : ℕ} (f : α → BitVec w) (l : List α) (acc : BitVec w)
    (hacc : acc.toNat + (l.map fun a => (f a).toNat).sum < 2 ^ w) :
    (l.foldl (fun acc a => acc + f a) acc).toNat =
      acc.toNat + (l.map fun a => (f a).toNat).sum := by
  induction l generalizing acc with
  | nil => simp
  | cons a l ih =>
    rw [List.map_cons, List.sum_cons] at hacc ⊢
    have hadd : (acc + f a).toNat = acc.toNat + (f a).toNat := by
      rw [BitVec.toNat_add, Nat.mod_eq_of_lt (by omega)]
    rw [List.foldl_cons, ih _ (by omega), hadd, Nat.add_assoc]

/-- The sum of `calculate_buffer_size` does not wrap around. -/
theorem toNat_calculateBufferSize (hfit : bs.Fits) :
    (calculateBufferSize bs).toNat = bs.totalSize := by
  have hzero : (0 : SizeT).toNat = 0 := rfl
  have hsum := toNat_foldl_add Board.bufferSize bs.toList 0 (by
    rw [hzero, Nat.zero_add]
    exact hfit)
  rw [calculateBufferSize, hsum, hzero, Nat.zero_add]
  rfl

/-! ### The loop of `calculate_buffer_offset` -/

/-- A pass of the loop as a function of its two variables, the counter `i` and the sum `offset`. -/
def offsetBody (bs : BoardTable) (boardIndex : SizeT) (s : SizeT × SizeT) :
    Except Stop (SizeT ⊕ SizeT × SizeT) :=
  offsetPass bs boardIndex s.1 s.2

/-- The variables before the first pass. -/
def offsetStart (bs : BoardTable) : SizeT × SizeT := (bs.size - 1, 0)

/-- The loop of `calculate_buffer_offset` reads `boards[i]`: a pass begins with the counter `i`, and
neither the loop condition nor the `break` ends the loop in it. -/
def ReadsBoard (bs : BoardTable) (boardIndex i : SizeT) : Prop :=
  ∃ offset, While.Visits (offsetBody bs boardIndex) (offsetStart bs) (i, offset) ∧
    ∀ result, offsetPass bs boardIndex i offset ≠ .ok (.inl result)

theorem offsetLoop_eq_loop (b : SizeT) (fuel : ℕ) (s : SizeT × SizeT) :
    offsetLoop bs b fuel s.1 s.2 = While.loop (offsetBody bs b) .outOfFuel fuel s := by
  induction fuel generalizing s with
  | zero => rfl
  | succ fuel ih =>
    rw [offsetLoop, While.loop, offsetBody]
    cases offsetPass bs b s.1 s.2 with
    | error e => rfl
    | ok next =>
      cases next with
      | inl result => rfl
      | inr t => exact ih t

theorem offsetPass_self (b offset : SizeT) : offsetPass bs b b offset = .ok (.inl offset) := by
  simp [offsetPass]

/-- Above the board searched for, a pass adds the size of one board and counts down. -/
theorem offsetPass_of_lt {b i : SizeT} (hi : b < i) {brd : Board} (hbrd : bs.get? i = some brd)
    (offset : SizeT) : offsetPass bs b i offset = .ok (.inr (i - 1, offset + brd.bufferSize)) := by
  have hle : b ≤ i := BitVec.le_of_lt hi
  have hnle : ¬ i ≤ b := BitVec.not_le.mpr hi
  simp [offsetPass, hle, hnle, hbrd]

/-- The invariant of the loop that searches for the board `b`: the counter is that of a board, not
before `b`, and the sum is that of the boards after the counter. -/
structure OffsetInv (bs : BoardTable) (b : SizeT) (s : SizeT × SizeT) : Prop where
  le : b.toNat ≤ s.1.toNat
  lt : s.1.toNat < bs.toList.length
  sum : s.2.toNat = bs.slotStart s.1.toNat

theorem toNat_sub_one {i : SizeT} (hi : 0 < i.toNat) : (i - 1).toNat + 1 = i.toNat := by
  have hle : 1 ≤ i := BitVec.le_def.mpr hi
  have hone : (1 : SizeT).toNat = 1 := rfl
  rw [BitVec.toNat_sub_of_le hle, hone, Nat.sub_add_cancel hi]

theorem toNat_offsetStart (h : 0 < bs.toList.length) :
    (offsetStart bs).1.toNat + 1 = bs.toList.length := by
  rw [offsetStart, toNat_sub_one (bs.toNat_size ▸ h), bs.toNat_size]

theorem offsetInv_start {b : SizeT} (hb : b.toNat < bs.toList.length) :
    OffsetInv bs b (offsetStart bs) := by
  have hlast := toNat_offsetStart (Nat.zero_lt_of_lt hb)
  refine ⟨by omega, by omega, ?_⟩
  rw [bs.slotStart_eq_slotEnd_succ, hlast, bs.slotEnd_length]
  rfl

/-- **One pass.** It ends the loop at the board searched for, and else reads the board of the
counter, counts down by one without wrapping around, and keeps the invariant. -/
theorem OffsetInv.pass (hfit : bs.Fits) {b : SizeT} {s : SizeT × SizeT} (h : OffsetInv bs b s) :
    s.1 = b ∧ offsetBody bs b s = .ok (.inl s.2) ∨
      b < s.1 ∧ ∃ t, While.Next (offsetBody bs b) s t ∧ OffsetInv bs b t ∧
        t.1.toNat + 1 = s.1.toNat := by
  obtain ⟨i, offset⟩ := s
  obtain ⟨hle, hlt, hsum⟩ := h
  rcases Nat.eq_or_lt_of_le hle with heq | hbi
  · obtain rfl : b = i := BitVec.eq_of_toNat_eq heq
    exact Or.inl ⟨rfl, offsetPass_self b offset⟩
  · change b.toNat < i.toNat at hbi
    change i.toNat < bs.toList.length at hlt
    have hget : bs.get? i = some bs.toList[i.toNat] := List.getElem?_eq_getElem hlt
    have hpred : (i - 1).toNat + 1 = i.toNat := toNat_sub_one (Nat.zero_lt_of_lt hbi)
    have hslot := bs.slotEnd_eq hget
    have htotal := bs.slotEnd_le_totalSize i.toNat
    have hadd : (offset + bs.toList[i.toNat].bufferSize).toNat = bs.slotStart (i - 1).toNat := by
      rw [BitVec.toNat_add, hsum, Nat.mod_eq_of_lt (hslot ▸ htotal.trans_lt hfit), ← hslot,
        bs.slotStart_eq_slotEnd_succ, hpred]
    refine Or.inr ⟨BitVec.lt_def.mpr hbi, _, offsetPass_of_lt (BitVec.lt_def.mpr hbi) hget offset,
      ⟨?_, ?_, hadd⟩, hpred⟩
    · change b.toNat ≤ (i - 1).toNat
      omega
    · change (i - 1).toNat < bs.toList.length
      omega

/-- The counter falls to the board searched for, where the sum is the start of its slot. -/
theorem offset_correct (hfit : bs.Fits) (b : SizeT) :
    While.Correct (offsetBody bs b) (OffsetInv bs b) (fun r => r.toNat = bs.slotStart b.toNat)
      fun s => s.1.toNat - b.toNat := fun s hs => by
  rcases hs.pass hfit with ⟨hsb, hends⟩ | ⟨hbs, t, ht, hinv, hpred⟩
  · have hsum : s.2.toNat = bs.slotStart b.toNat := hsb ▸ hs.sum
    exact Or.inl ⟨s.2, hends, hsum⟩
  · have hlt := BitVec.lt_def.mp hbs
    have hfalls : t.1.toNat - b.toNat < s.1.toNat - b.toNat := by omega
    exact Or.inr ⟨t, ht, hinv, hfalls⟩

/-- **The offset of a board.** For a board of the table the loop ends, reads no board outside the
table and returns the first byte of its slot. -/
theorem calculateBufferOffset_eq (hfit : bs.Fits) {b : SizeT} (hb : b.toNat < bs.toList.length) :
    ∃ offset, calculateBufferOffset bs b = .ok offset ∧ offset.toNat = bs.slotStart b.toNat := by
  have hstart := offsetInv_start hb
  have hfuel : (offsetStart bs).1.toNat - b.toNat < bs.toList.length + 1 :=
    (Nat.sub_le _ _).trans_lt (hstart.lt.trans (Nat.lt_succ_self _))
  obtain ⟨offset, hloop, hoffset⟩ :=
    (offset_correct hfit b).exists_loop Stop.outOfFuel hstart hfuel
  exact ⟨offset, (offsetLoop_eq_loop b _ (offsetStart bs)).trans hloop, hoffset⟩

end Modellbahn
