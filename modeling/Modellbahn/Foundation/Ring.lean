import Mathlib.Data.Nat.Notation
import Mathlib.Logic.Function.Basic
import Mathlib.Tactic.Common

/-!
# Rings of indices

A buffer with the indices `0, …, m - 1`, which are taken round in a ring: `Ring.next i` is the index
after `i`, and `Ring.dist i j` the number of indices from `i` up to `j`. The values of a buffer at
the indices from `i` on are `Ring.segment`.

With two indices, one where values are written and one where they are read, such a buffer is a queue
of at most `m - 1` values: the queue is empty where the two agree (`Ring.dist_eq_zero`), it is full
where the next one to write is the one to read (`Ring.dist_lt_iff`), a value that is written comes
last (`Ring.segment_update`), and the one that is read comes first (`Ring.segment_dist`).
-/

namespace Ring

variable {α : Type*} {m : ℕ}

/-- The index after `i`. -/
def next (i : Fin m) : Fin m :=
  if h : i.val + 1 < m then ⟨i.val + 1, h⟩ else ⟨0, Nat.zero_lt_of_lt i.isLt⟩

/-- The number of indices from `i` on and before `j`. -/
def dist (i j : Fin m) : ℕ := if i ≤ j then j.val - i.val else m - i.val + j.val

/-- The values at the `k` indices from `i` on. -/
def segment (f : Fin m → α) : Fin m → ℕ → List α
  | _, 0 => []
  | i, k + 1 => f i :: segment f (next i) k

theorem val_next (i : Fin m) : (next i).val = if i.val + 1 < m then i.val + 1 else 0 := by
  rw [next]
  split_ifs <;> rfl

/-! ### Distances -/

theorem dist_lt (i j : Fin m) : dist i j < m := by
  have hi := i.isLt
  have hj := j.isLt
  rw [dist]
  split_ifs with h
  · omega
  · rw [Fin.le_def] at h
    omega

theorem dist_eq_zero {i j : Fin m} : dist i j = 0 ↔ i = j := by
  have hi := i.isLt
  rw [dist, Fin.ext_iff]
  split_ifs with h
  · rw [Fin.le_def] at h
    omega
  · rw [Fin.le_def] at h
    omega

theorem dist_self (i : Fin m) : dist i i = 0 := dist_eq_zero.mpr rfl

/-- The index after `j` is not `i` exactly if some index is left free. -/
theorem dist_lt_iff {i j : Fin m} : dist i j + 1 < m ↔ next j ≠ i := by
  have hi := i.isLt
  have hj := j.isLt
  rw [dist, Ne, Fin.ext_iff, val_next]
  split_ifs with h h' h' <;> rw [Fin.le_def] at h <;> omega

theorem dist_next_right {i j : Fin m} (h : next j ≠ i) : dist i (next j) = dist i j + 1 := by
  have hi := i.isLt
  have hj := j.isLt
  rw [Ne, Fin.ext_iff, val_next] at h
  simp only [dist, Fin.le_def, val_next]
  split_ifs at h ⊢ <;> omega

theorem dist_next_left {i j : Fin m} (h : i ≠ j) : dist (next i) j + 1 = dist i j := by
  have hi := i.isLt
  have hj := j.isLt
  rw [Ne, Fin.ext_iff] at h
  simp only [dist, Fin.le_def, val_next]
  split_ifs <;> omega

/-! ### Segments -/

@[simp] theorem length_segment (f : Fin m → α) (i : Fin m) (k : ℕ) :
    (segment f i k).length = k := by
  induction k generalizing i with
  | zero => rfl
  | succ k ih => rw [segment, List.length_cons, ih]

theorem segment_dist (f : Fin m → α) {i j : Fin m} (h : i ≠ j) :
    segment f i (dist i j) = f i :: segment f (next i) (dist (next i) j) := by
  rw [← dist_next_left h, segment]

/-- A value written at the end of a segment is its last one, and changes none of the others. -/
theorem segment_update (f : Fin m → α) {i j : Fin m} {k : ℕ}
    (hk : dist i j = k) (x : α) :
    segment (Function.update f j x) i k = segment f i k ∧
      segment (Function.update f j x) i (k + 1) = segment f i k ++ [x] := by
  induction k generalizing i with
  | zero =>
    obtain rfl := dist_eq_zero.mp hk
    exact ⟨rfl, by simp [segment]⟩
  | succ k ih =>
    have hne : i ≠ j := by
      rintro rfl
      rw [dist_self] at hk
      exact absurd hk (Nat.zero_ne_add_one k)
    have hnext := dist_next_left hne
    obtain ⟨hsame, hlast⟩ := ih (i := next i) (by omega)
    constructor
    · rw [segment, segment, hsame, Function.update_of_ne hne]
    · rw [segment, hlast, Function.update_of_ne hne]
      rfl

end Ring
