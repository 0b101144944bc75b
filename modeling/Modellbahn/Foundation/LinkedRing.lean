import Mathlib.Data.List.Nodup
import Mathlib.Logic.Function.Basic

/-!
# Singly linked rings

The pointers of a linked structure are a function `next : α → Option α`, with `none` for the null
pointer. `LinkedRing.Path next a l b` says that the pointers lead from `a` over the nodes of `l` to
`b`, and a ring with the last node `z` is a path from `z` to `z`: its nodes are those of `l ++ [z]`,
in this order.

## Main results

* `LinkedRing.Path.of_start`: a path depends on the pointers of its nodes only.
* `LinkedRing.Ring.rotate`: the first node becomes the last one.
* `LinkedRing.Ring.insert`: a node is linked in after the last one.
* `LinkedRing.Ring.remove`: the first node is linked out.
-/

namespace LinkedRing

variable {α : Type*}

/-- The pointers lead from `a` over the nodes of `l` to `b`. -/
def Path (next : α → Option α) (a : α) : (l : List α) → (b : α) → Prop
  | [], b => next a = some b
  | c :: l, b => next a = some c ∧ Path next c l b

variable {next next' : α → Option α} {a b c t z : α} {l m : List α}

theorem Path.append (h : Path next a l c) (h' : Path next c m b) :
    Path next a (l ++ c :: m) b := by
  induction l generalizing a with
  | nil => exact ⟨h, h'⟩
  | cons d l ih => exact ⟨h.1, ih h.2⟩

/-- **Frame rule.** A path stays one where its first node is replaced by one with the same pointer
and the pointers of the other nodes are unchanged. -/
theorem Path.of_start (h : Path next a l b) (hstart : next' t = next a)
    (hsame : ∀ c ∈ l, next' c = next c) : Path next' t l b := by
  induction l generalizing a t with
  | nil => exact hstart.trans h
  | cons c l ih =>
    exact ⟨hstart.trans h.1, ih h.2 (hsame c List.mem_cons_self) fun d hd =>
      hsame d (List.mem_cons_of_mem c hd)⟩

theorem Path.next_eq (h : Path next a l b) : next a = (l ++ [b]).head? := by
  cases l with
  | nil => exact h
  | cons c l => exact h.1

/-- The nodes of `l ++ [z]` are linked in a ring, in this order. -/
structure Ring (next : α → Option α) (l : List α) (z : α) : Prop where
  path : Path next z l z
  nodup : (l ++ [z]).Nodup

namespace Ring

theorem notMem (h : Ring next l z) : z ∉ l := fun hz =>
  (List.nodup_append.mp h.nodup).2.2 z hz z (List.mem_singleton_self z) rfl

theorem singleton (h : next z = some z) : Ring next [] z := ⟨h, List.nodup_singleton z⟩

theorem rotate (h : Ring next (a :: l) z) : Ring next (l ++ [z]) a where
  path := h.path.2.append h.path.1
  nodup := by
    have hperm : (l ++ [z] ++ [a]).Perm (a :: l ++ [z]) := List.perm_append_singleton a (l ++ [z])
    exact hperm.nodup_iff.mpr h.nodup

variable [DecidableEq α]

/-- A new node `t` is linked in after the last one and is then the last one. -/
theorem insert (h : Ring next l z) (ht : t ∉ l ++ [z]) :
    Ring (Function.update (Function.update next t (next z)) z (some t)) (l ++ [z]) t := by
  have htz : t ≠ z := fun he => ht (he ▸ by simp)
  have htl : t ∉ l := fun hl => ht (List.mem_append_left _ hl)
  refine ⟨?_, ?_⟩
  · refine Path.append (h.path.of_start ?_ fun c hc => ?_) (Function.update_self z _ _)
    · rw [Function.update_of_ne htz, Function.update_self]
    · have hcz : c ≠ z := fun he => h.notMem (he ▸ hc)
      have hct : c ≠ t := fun he => htl (he ▸ hc)
      rw [Function.update_of_ne hcz, Function.update_of_ne hct]
  · exact h.nodup.append (List.nodup_singleton t) (List.disjoint_singleton.mpr ht)

/-- The first node `a` is linked out, and its pointer set to null. -/
theorem remove (h : Ring next (a :: l) z) :
    Ring (Function.update (Function.update next z (next a)) a none) l z := by
  have hnodup : (a :: (l ++ [z])).Nodup := h.nodup
  obtain ⟨ha, hrest⟩ := List.nodup_cons.mp hnodup
  have hza : z ≠ a := fun he => ha (he ▸ by simp)
  refine ⟨h.path.2.of_start ?_ fun c hc => ?_, hrest⟩
  · rw [Function.update_of_ne hza, Function.update_self]
  · have hca : c ≠ a := fun he => ha (he ▸ List.mem_append_left _ hc)
    have hcz : c ≠ z := fun he => h.notMem (he ▸ List.mem_cons_of_mem a hc)
    rw [Function.update_of_ne hca, Function.update_of_ne hcz]

end Ring

end LinkedRing
