import Mathlib.Data.List.Induction
import Mathlib.Data.List.Nodup
import Mathlib.Logic.Function.Basic
import Mathlib.Tactic.Common

/-!
# Memories and logs of writes

A memory is a function `m : K → α`, and a log is a list of writes `(k, a)`, the first write first.
`WriteLog.apply m ws` is the memory after the log.

## Main results

* `WriteLog.apply_eq_lastWrite`: a cell holds the last value written to it, or its first content.
* `WriteLog.apply_congr`: only the order of the writes to equal cells matters.
* `WriteLog.apply_eq_of_mem`: after at most one write a cell, each write is read back.
* `WriteLog.apply_sublist`: writes that change nothing can be left out of such a log.
* `WriteLog.UnderWay.eq_or_eq`: during such a log a cell has only its first and its last content.
-/

namespace WriteLog

variable {K α : Type*} [DecidableEq K]

/-- The memory `m` after the writes `ws`. -/
def apply (m : K → α) (ws : List (K × α)) : K → α :=
  ws.foldl (fun m w => Function.update m w.1 w.2) m

/-- The values written to the cell `k`, the first one first. -/
def valuesAt (k : K) (ws : List (K × α)) : List α :=
  (ws.filter fun w => w.1 = k).map Prod.snd

/-- The last value written to the cell `k`, or `a` where there was none. -/
def lastWrite (a : α) (k : K) (ws : List (K × α)) : α :=
  (valuesAt k ws).getLast?.getD a

variable (m : K → α) (k : K) (ws : List (K × α))

@[simp] theorem apply_nil : apply m [] = m := rfl

@[simp] theorem apply_cons (w : K × α) :
    apply m (w :: ws) = apply (Function.update m w.1 w.2) ws := rfl

theorem apply_append (ws' : List (K × α)) : apply m (ws ++ ws') = apply (apply m ws) ws' :=
  List.foldl_append

theorem apply_concat (w : K × α) :
    apply m (ws ++ [w]) = Function.update (apply m ws) w.1 w.2 := by
  rw [apply_append, apply_cons, apply_nil]

@[simp] theorem valuesAt_concat (w : K × α) :
    valuesAt k (ws ++ [w]) = if w.1 = k then valuesAt k ws ++ [w.2] else valuesAt k ws := by
  simp only [valuesAt, List.filter_append, List.map_append, List.filter_cons, List.filter_nil]
  by_cases h : w.1 = k <;> simp [h]

/-- **The last write wins.** -/
theorem apply_eq_lastWrite : apply m ws k = lastWrite (m k) k ws := by
  induction ws using List.reverseRecOn with
  | nil => rfl
  | append_singleton ws w ih =>
    rw [apply_concat, lastWrite, valuesAt_concat]
    by_cases h : w.1 = k
    · subst h
      simp
    · rw [Function.update_of_ne (Ne.symm h), ih]
      simp [h, lastWrite]

theorem valuesAt_eq_nil {k : K} {ws : List (K × α)} (hk : ∀ w ∈ ws, w.1 ≠ k) :
    valuesAt k ws = [] := by
  simpa [valuesAt, List.filter_eq_nil_iff] using hk

/-- A cell that is not written keeps its content. -/
theorem apply_of_notMem {k : K} {ws : List (K × α)} (hk : ∀ w ∈ ws, w.1 ≠ k) :
    apply m ws k = m k := by
  rw [apply_eq_lastWrite, lastWrite, valuesAt_eq_nil hk]
  rfl

/-- Two logs with the same writes to every single cell, each in the same order, have the same
effect. -/
theorem apply_congr {ws ws' : List (K × α)} (h : ∀ k, valuesAt k ws = valuesAt k ws') :
    apply m ws = apply m ws' := by
  ext k
  simp only [apply_eq_lastWrite, lastWrite, h k]

/-- A log hides the contents of the cells that it writes. -/
theorem apply_eq_of_forall_notMem {m m' : K → α} {ws : List (K × α)}
    (h : ∀ k, (∀ w ∈ ws, w.1 ≠ k) → m k = m' k) : apply m ws = apply m' ws := by
  ext k
  by_cases hk : ∀ w ∈ ws, w.1 ≠ k
  · rw [apply_of_notMem m hk, apply_of_notMem m' hk, h k hk]
  · have hne : valuesAt k ws ≠ [] := by
      simpa [valuesAt, List.filter_eq_nil_iff] using hk
    obtain ⟨a, ha⟩ := List.getLast?_isSome.mpr hne |> Option.isSome_iff_exists.mp
    simp only [apply_eq_lastWrite, lastWrite, ha, Option.getD_some]

/-- In a log with at most one write to a cell, a write is read back. -/
theorem apply_eq_of_mem {ws : List (K × α)} (hnodup : (ws.map Prod.fst).Nodup) {w : K × α}
    (hw : w ∈ ws) : apply m ws w.1 = w.2 := by
  induction ws generalizing m with
  | nil => cases hw
  | cons v ws ih =>
    rw [List.map_cons, List.nodup_cons] at hnodup
    rcases List.mem_cons.mp hw with rfl | hw
    · have hrest : ∀ v ∈ ws, v.1 ≠ w.1 := fun v hv he =>
        hnodup.1 (he ▸ List.mem_map_of_mem hv)
      rw [apply_cons, apply_of_notMem _ hrest, Function.update_self]
    · exact ih (Function.update m v.1 v.2) hnodup.2 hw

/-- The writes of a log with at most one write to a cell that change nothing can be left out. -/
theorem apply_sublist {ws ws' : List (K × α)} (hnodup : (ws.map Prod.fst).Nodup)
    (hsub : ws'.Sublist ws) (hskip : ∀ w ∈ ws, w ∉ ws' → m w.1 = w.2) :
    apply m ws' = apply m ws := by
  ext k
  by_cases hk : ∃ w ∈ ws, w.1 = k
  · obtain ⟨w, hw, rfl⟩ := hk
    rw [apply_eq_of_mem m hnodup hw]
    by_cases hw' : w ∈ ws'
    · exact apply_eq_of_mem m (hnodup.sublist (hsub.map Prod.fst)) hw'
    · have hne : ∀ v ∈ ws', v.1 ≠ w.1 := fun v hv he =>
        hw' (List.inj_on_of_nodup_map hnodup (hsub.subset hv) hw he ▸ hv)
      rw [apply_of_notMem m hne, hskip w hw hw']
  · have hne : ∀ w ∈ ws, w.1 ≠ k := fun w hw he => hk ⟨w, hw, he⟩
    rw [apply_of_notMem m hne, apply_of_notMem m fun w hw => hne w (hsub.subset hw)]

/-! ### A log under way -/

/-- The memory `m` has been reached from `m₀` by a part of a log with at most one write to a cell.
The writes `ws` are still to come, and their cells are untouched. -/
structure UnderWay (m₀ m : K → α) (ws : List (K × α)) : Prop where
  nodup : (ws.map Prod.fst).Nodup
  untouched : ∀ k ∈ ws.map Prod.fst, m k = m₀ k

namespace UnderWay

variable {m₀ m : K → α} {ws ws' : List (K × α)}

omit [DecidableEq K] in
theorem start (m₀ : K → α) (hnodup : (ws.map Prod.fst).Nodup) : UnderWay m₀ m₀ ws :=
  ⟨hnodup, fun _ _ => rfl⟩

theorem advance (h : UnderWay m₀ m (ws ++ ws')) : UnderWay m₀ (apply m ws) ws' := by
  obtain ⟨hnodup, huntouched⟩ := h
  rw [List.map_append, List.nodup_append] at hnodup
  refine ⟨hnodup.2.1, fun k hk => ?_⟩
  have hne : ∀ w ∈ ws, w.1 ≠ k := fun w hw => hnodup.2.2 w.1 (List.mem_map_of_mem hw) k hk
  rw [apply_of_notMem m hne]
  exact huntouched k (by rw [List.map_append]; exact List.mem_append_right _ hk)

/-- **No cell has a third content.** While the log is carried out, a cell has the content from
before or the one from after the log. -/
theorem eq_or_eq (h : UnderWay m₀ m ws) (k : K) : m k = m₀ k ∨ m k = apply m ws k := by
  by_cases hk : k ∈ ws.map Prod.fst
  · exact Or.inl (h.untouched k hk)
  · have hne : ∀ w ∈ ws, w.1 ≠ k := by
      rintro w hw rfl
      exact hk (List.mem_map_of_mem hw)
    exact Or.inr (apply_of_notMem m hne).symm

end UnderWay

end WriteLog
