import Mathlib.Data.Vector.Basic
import Mathlib.Logic.Function.Basic
import Mathlib.Tactic.Common

/-!
# Bits packed into an array of words

An array of `n` words of `w` bits is a memory of single bits: the cell `(i, j)` is the bit `j` of
the word `i`. A read-modify-write of one word with a mask of one bit is the update of one cell of
that memory (`PackedBits.image_set_writeBit`), and the memory determines the array
(`PackedBits.image_injective`).
-/

namespace PackedBits

variable {w n : ℕ}

/-- The memory of bits of an array of words, `false` outside the array. -/
def image (buf : Vector (BitVec w) n) (cell : ℕ × ℕ) : Bool :=
  (buf[cell.1]?.getD 0).getLsbD cell.2

/-- The word with the bit `j` set to `b`, by a mask of one bit. -/
def writeBit (word : BitVec w) (j : ℕ) (b : Bool) : BitVec w :=
  if b then word ||| BitVec.twoPow w j else word &&& ~~~BitVec.twoPow w j

theorem image_of_lt {buf : Vector (BitVec w) n} {i : ℕ} (hi : i < n) (j : ℕ) :
    image buf (i, j) = buf[i].getLsbD j := by
  simp [image, hi]

theorem image_of_le {buf : Vector (BitVec w) n} {i : ℕ} (hi : n ≤ i) (j : ℕ) :
    image buf (i, j) = false := by
  simp [image, Nat.not_lt.mpr hi]

@[simp] theorem image_replicate_zero :
    image (Vector.replicate n (0 : BitVec w)) = fun _ => false := by
  ext ⟨i, j⟩
  rcases Nat.lt_or_ge i n with hi | hi
  · simp [image_of_lt hi]
  · exact image_of_le hi j

theorem getLsbD_writeBit (word : BitVec w) {j : ℕ} (hj : j < w) (b : Bool) (l : ℕ) :
    (writeBit word j b).getLsbD l = if l = j then b else word.getLsbD l := by
  by_cases hl : l = j
  · subst hl
    cases b <;> simp [writeBit, hj]
  · rcases Nat.lt_or_ge l w with hlw | hlw
    · cases b <;> simp [writeBit, hl, hlw]
    · simp [hl, BitVec.getLsbD_of_ge _ _ hlw]

/-- **A masked write is the update of one bit.** -/
theorem image_set_writeBit (buf : Vector (BitVec w) n) {i j : ℕ} (hi : i < n) (hj : j < w)
    (b : Bool) :
    image (buf.set i (writeBit buf[i] j b)) = Function.update (image buf) (i, j) b := by
  ext ⟨i', j'⟩
  rcases Nat.lt_or_ge i' n with hi' | hi'
  · rw [image_of_lt hi', Vector.getElem_set hi hi']
    by_cases h : i = i'
    · subst h
      rw [if_pos rfl, getLsbD_writeBit _ hj]
      by_cases hl : j' = j
      · simp [hl]
      · simp [hl, image_of_lt hi]
    · have hne : (i', j') ≠ (i, j) := fun he => h (Prod.mk.inj he).1.symm
      rw [if_neg h, Function.update_of_ne hne, image_of_lt hi']
  · have hne : (i', j') ≠ (i, j) := fun he => by
      have := (Prod.mk.inj he).1
      omega
    rw [image_of_le hi', Function.update_of_ne hne, image_of_le hi']

/-- The bits determine the words. -/
theorem image_injective : Function.Injective (image : Vector (BitVec w) n → ℕ × ℕ → Bool) := by
  intro buf buf' h
  refine Vector.ext fun i hi => ?_
  refine BitVec.eq_of_getLsbD_eq fun j _ => ?_
  rw [← image_of_lt hi, ← image_of_lt hi, h]

end PackedBits
