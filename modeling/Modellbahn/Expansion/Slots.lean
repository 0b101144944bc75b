import Modellbahn.Expansion.Offset
import Mathlib.Data.Nat.SuccPred
import Mathlib.Order.CompletePartialOrder
import Mathlib.Order.SuccPred.IntervalSucc

/-!
# The slots tile the output buffer

The bytes of a board are the `buffer_size()` bytes from `calculate_buffer_offset` on. They are its
slot, the interval between two successive values of `BoardTable.slotEnd`. As that function falls
from the total size to `0`, the slots are disjoint, lie in descending order of the boards and fill
the buffer, whatever the sizes of the boards are.

## Main definitions

* `Modellbahn.byteRange`: the bytes of a board, computed with `calculate_buffer_offset`.

## Main results

* `Modellbahn.readsBoard_iff`: the boards that `calculate_buffer_offset` reads.
* `Modellbahn.byteRange_eq`: the bytes of a board are its slot.
* `Modellbahn.slots_tile_buffer`: the loop of `calculate_buffer_offset`, and the tiling.
-/

namespace Modellbahn

/-- The first byte of a board and the first byte after it, of the range
`[offset, offset + buffer_size())`. -/
def byteRange (bs : BoardTable) (boardIndex : SizeT) : Except Stop (ℕ × ℕ) :=
  match calculateBufferOffset bs boardIndex, bs.get? boardIndex with
  | .error e, _ => .error e
  | .ok _, none => .error .outOfRange
  | .ok offset, some b => .ok (offset.toNat, offset.toNat + b.bufferSize.toNat)

/-- The slot of a board, by sums of natural numbers. -/
def slotRange (bs : BoardTable) (boardIndex : SizeT) : ℕ × ℕ :=
  (bs.slotStart boardIndex.toNat, bs.slotEnd boardIndex.toNat)

/-- The intervals between successive values of an antitone function fill the interval between the
last and the first value. -/
theorem biUnion_Ico_map_succ {f : ℕ → ℕ} (hf : Antitone f) (m n : ℕ) :
    ⋃ k ∈ Set.Ico m n, Set.Ico (f (k + 1)) (f k) = Set.Ico (f n) (f m) := by
  have hdual := hf.dual_right.biUnion_Ico_Ioc_map_succ m n
  simp only [Function.comp_apply, Set.Ioc_toDual, Order.succ_eq_add_one] at hdual
  exact hdual

variable {bs : BoardTable}

/-! ### What the loop of `calculate_buffer_offset` does -/

/-- The loop that searches for the board `b` comes to every counter from the last board down to
`b`. -/
theorem exists_visits (hfit : bs.Fits) {b : SizeT} (hb : b < bs.size) (d : ℕ)
    (hd : b.toNat + 1 + d ≤ bs.toList.length) :
    ∃ s, While.Visits (offsetBody bs b) (offsetStart bs) s ∧ OffsetInv bs b s ∧
      s.1.toNat + 1 + d = bs.toList.length := by
  induction d with
  | zero =>
    have hstart := offsetInv_start (bs.lt_size_iff.mp hb)
    have hlast := toNat_offsetStart (Nat.zero_lt_of_lt hstart.lt)
    exact ⟨offsetStart bs, Relation.ReflTransGen.refl, hstart, hlast⟩
  | succ d ih =>
    obtain ⟨s, hvisits, hinv, hs⟩ := ih (by omega)
    rcases hinv.pass hfit with ⟨hsb, -⟩ | ⟨-, t, hnext, hinv', hpred⟩
    · rw [hsb] at hs
      omega
    · exact ⟨t, hvisits.tail hnext, hinv', by omega⟩

/-- **The loop that searches for the board `b` reads the boards after `b`**, and no others. -/
theorem readsBoard_iff (hfit : bs.Fits) {b : SizeT} (hb : b < bs.size) (i : SizeT) :
    ReadsBoard bs b i ↔ i.toNat ∈ Set.Ico (b.toNat + 1) bs.toList.length := by
  constructor
  · rintro ⟨offset, hvisits, hreads⟩
    have hstart := offsetInv_start (bs.lt_size_iff.mp hb)
    have hinv := (offset_correct hfit b).inv_of_visits hstart hvisits
    rcases hinv.pass hfit with ⟨-, hends⟩ | ⟨hbi, -⟩
    · exact absurd hends (hreads offset)
    · exact ⟨BitVec.lt_def.mp hbi, hinv.lt⟩
  · rintro ⟨hbi, hi⟩
    obtain ⟨⟨j, offset⟩, hvisits, hinv, hj⟩ :=
      exists_visits hfit hb (bs.toList.length - (i.toNat + 1)) (by omega)
    obtain rfl : j = i := BitVec.eq_of_toNat_eq (by simp only at hj; omega)
    refine ⟨offset, hvisits, ?_⟩
    rcases hinv.pass hfit with ⟨hjb, -⟩ | ⟨-, t, hnext, -⟩
    · subst hjb
      omega
    · exact hnext.ne_ends

/-- The loop that searches for a board of the table never counts down from `0`. -/
theorem counter_of_next (hfit : bs.Fits) {b : SizeT} (hb : b < bs.size) {s t : SizeT × SizeT}
    (hvisits : While.Visits (offsetBody bs b) (offsetStart bs) s)
    (hnext : While.Next (offsetBody bs b) s t) : t.1.toNat + 1 = s.1.toNat := by
  have hstart := offsetInv_start (bs.lt_size_iff.mp hb)
  have hinv := (offset_correct hfit b).inv_of_visits hstart hvisits
  rcases hinv.pass hfit with ⟨-, hends⟩ | ⟨-, t', hnext', -, hpred⟩
  · exact absurd hends (hnext.ne_ends s.2)
  · exact hnext'.unique hnext ▸ hpred

/-! ### The tiling -/

/-- **The bytes of a board are its slot.** -/
theorem byteRange_eq (hfit : bs.Fits) {b : SizeT} (hb : b < bs.size) :
    byteRange bs b = .ok (slotRange bs b) := by
  have hlt := bs.lt_size_iff.mp hb
  have hget : bs.get? b = some bs.toList[b.toNat] := List.getElem?_eq_getElem hlt
  obtain ⟨offset, hoffset, hstart⟩ := calculateBufferOffset_eq hfit hlt
  rw [byteRange, hoffset, hget, slotRange, bs.slotEnd_eq hget, ← hstart]

theorem disjoint_slotRange {b c : SizeT} (hne : b ≠ c) :
    Disjoint (Set.Ico (slotRange bs b).1 (slotRange bs b).2)
      (Set.Ico (slotRange bs c).1 (slotRange bs c).2) := by
  have hne' : b.toNat ≠ c.toNat := fun h => hne (BitVec.eq_of_toNat_eq h)
  exact bs.slotEnd_antitone.pairwise_disjoint_on_Ico_succ hne'

/-- The slot of a later board ends before the slot of an earlier one starts. -/
theorem slotRange_le {b c : SizeT} (hbc : b < c) : (slotRange bs c).2 ≤ (slotRange bs b).1 :=
  bs.slotEnd_antitone (BitVec.lt_def.mp hbc)

/-- The slots fill the buffer. -/
theorem iUnion_slotRange :
    ⋃ (b : SizeT) (_ : b < bs.size), Set.Ico (slotRange bs b).1 (slotRange bs b).2 =
      Set.Ico 0 bs.totalSize := by
  rw [← bs.slotEnd_length, ← bs.slotEnd_zero, ← biUnion_Ico_map_succ bs.slotEnd_antitone]
  ext j
  simp only [Set.mem_iUnion, exists_prop]
  constructor
  · rintro ⟨b, hb, hj⟩
    exact ⟨b.toNat, ⟨Nat.zero_le _, bs.lt_size_iff.mp hb⟩, hj⟩
  · rintro ⟨k, ⟨-, hk⟩, hj⟩
    have htoNat : (BitVec.ofNat 32 k).toNat = k := by
      rw [BitVec.toNat_ofNat, Nat.mod_eq_of_lt (hk.trans bs.length_lt)]
    refine ⟨BitVec.ofNat 32 k, bs.lt_size_iff.mpr (htoNat.symm ▸ hk), ?_⟩
    rw [slotRange, htoNat]
    exact hj

/-- **The slots tile the buffer.** For every table whose total size fits in a `size_t`, and every
board `b` of it, `calculate_buffer_offset(b)` reads the boards of the table after `b` and no others,
decrements its counter only where that is not `0`, and ends with the sum of the sizes of the boards
after `b`; and the byte ranges of the boards are pairwise disjoint, lie in descending order of the
boards, and together are the bytes of the buffer. -/
theorem slots_tile_buffer (hfit : bs.Fits) :
    (∀ b, b < bs.size →
      (∀ i, ReadsBoard bs b i ↔ i.toNat ∈ Set.Ico (b.toNat + 1) bs.toList.length) ∧
      (∀ s t, While.Visits (offsetBody bs b) (offsetStart bs) s →
        While.Next (offsetBody bs b) s t → t.1.toNat + 1 = s.1.toNat) ∧
      ∃ offset, calculateBufferOffset bs b = .ok offset ∧
        offset.toNat =
          ((bs.toList.drop (b.toNat + 1)).map fun board => board.bufferSize.toNat).sum) ∧
    ∃ range : SizeT → ℕ × ℕ, (∀ b, b < bs.size → byteRange bs b = .ok (range b)) ∧
      (∀ b c, b < bs.size → c < bs.size → b ≠ c →
        Disjoint (Set.Ico (range b).1 (range b).2) (Set.Ico (range c).1 (range c).2)) ∧
      (∀ b c, b < c → c < bs.size → (range c).2 ≤ (range b).1) ∧
      ⋃ (b : SizeT) (_ : b < bs.size), Set.Ico (range b).1 (range b).2 =
        Set.Ico 0 (calculateBufferSize bs).toNat := by
  refine ⟨fun b hb => ⟨?_, ?_, ?_⟩, slotRange bs, fun b hb => byteRange_eq hfit hb, ?_, ?_, ?_⟩
  · intro i
    exact readsBoard_iff hfit hb i
  · intro s t hvisits hnext
    exact counter_of_next hfit hb hvisits hnext
  · obtain ⟨offset, hoffset, hsum⟩ := calculateBufferOffset_eq hfit (bs.lt_size_iff.mp hb)
    refine ⟨offset, hoffset, ?_⟩
    rw [hsum, BoardTable.slotStart, BoardTable.sizes, List.map_drop]
  · intro b c _ _ hne
    exact disjoint_slotRange hne
  · intro b c hbc _
    exact slotRange_le hbc
  · rw [iUnion_slotRange, toNat_calculateBufferSize hfit]

theorem slots_tile_buffer_boards :
    (∀ b, b < boards.size →
      (∀ i, ReadsBoard boards b i ↔ i.toNat ∈ Set.Ico (b.toNat + 1) boards.toList.length) ∧
      (∀ s t, While.Visits (offsetBody boards b) (offsetStart boards) s →
        While.Next (offsetBody boards b) s t → t.1.toNat + 1 = s.1.toNat) ∧
      ∃ offset, calculateBufferOffset boards b = .ok offset ∧
        offset.toNat =
          ((boards.toList.drop (b.toNat + 1)).map fun board => board.bufferSize.toNat).sum) ∧
    ∃ range : SizeT → ℕ × ℕ, (∀ b, b < boards.size → byteRange boards b = .ok (range b)) ∧
      (∀ b c, b < boards.size → c < boards.size → b ≠ c →
        Disjoint (Set.Ico (range b).1 (range b).2) (Set.Ico (range c).1 (range c).2)) ∧
      (∀ b c, b < c → c < boards.size → (range c).2 ≤ (range b).1) ∧
      ⋃ (b : SizeT) (_ : b < boards.size), Set.Ico (range b).1 (range b).2 =
        Set.Ico 0 (calculateBufferSize boards).toNat :=
  slots_tile_buffer boards_fits

/-- Boards of different sizes, one of them without a byte: the second one has the bytes from the
fifth on. -/
example : byteRange { toList := [⟨0, 1⟩, ⟨3, 2⟩, ⟨0, 0⟩, ⟨2, 5⟩], length_lt := by decide } 1 =
    .ok (5, 8) := by decide

end Modellbahn
