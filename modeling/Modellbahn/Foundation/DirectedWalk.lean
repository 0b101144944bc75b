import Mathlib.Data.List.Chain
import Mathlib.Data.List.Iterate
import Mathlib.Data.Set.Defs
import Mathlib.Tactic.Common

/-!
# Walks over directed edges

A walker stands on a directed edge `(u, v)`: it is at `v` and came from `u`. Under an input `i` it
goes on to `move u v i`. A set of edges that is closed under all inputs contains every walk that
starts in it; if it contains no edge together with its reversal, no two of these walks use one edge
in both directions. A walk of which every turn can be undone is retraced from its end. Where bounds
for the number of moves up to a place are known, walks of any length visit it accordingly often.

## Main results

* `DirectedWalk.foldl_mem_of_closed`: closed sets of edges.
* `DirectedWalk.not_both_ways`: one-way walks.
* `DirectedWalk.retrace`: the way back.
* `DirectedWalk.length_add_le_of_far`, `DirectedWalk.near_add_le_length`: visits of a place.
-/

namespace DirectedWalk

variable {V ι : Type*}

/-- One move of the walker under the input `i`. -/
def step (move : V → V → ι → V) (e : V × V) (i : ι) : V × V := (e.2, move e.1 e.2 i)

/-- A set of edges that the walker does not leave. -/
def Closed (move : V → V → ι → V) (E : Set (V × V)) : Prop := ∀ e ∈ E, ∀ i, step move e i ∈ E

/-- A set of edges without an edge and its reversal. -/
def OneWay (E : Set (V × V)) : Prop := ∀ e ∈ E, e.swap ∉ E

variable {move : V → V → ι → V} {E : Set (V × V)} {e : V × V}

theorem foldl_mem_of_closed (hclosed : Closed move E) (he : e ∈ E) (is : List ι) :
    is.foldl (step move) e ∈ E := by
  induction is generalizing e with
  | nil => exact he
  | cons i is ih => exact ih (hclosed e he i)

/-- A walker that starts in a closed one-way set of edges never uses an edge in both directions,
neither in one walk nor in two. -/
theorem not_both_ways (hclosed : Closed move E) (honeWay : OneWay E) (he : e ∈ E)
    (is js : List ι) : js.foldl (step move) e ≠ (is.foldl (step move) e).swap := fun h =>
  honeWay _ (foldl_mem_of_closed hclosed he is) (h ▸ foldl_mem_of_closed hclosed he js)

/-! ### The way back -/

/-- One move of a walker without inputs. -/
def back (move : V → V → V) (e : V × V) : V × V := (e.2, move e.1 e.2)

theorem iterate_of_isChain {α : Type*} {f : α → α} {a : α} {l : List α}
    (h : (a :: l).IsChain fun x y => f x = y) : List.iterate f a (l.length + 1) = a :: l := by
  induction l generalizing a with
  | nil => rfl
  | cons b l ih =>
    obtain ⟨rfl, hrest⟩ := List.isChain_cons_cons.mp h
    rw [List.length_cons, List.iterate, ih hrest]

/-- **The way back.** If from each edge `(v, w)` of a path, walked against its direction, the move
leads back over the edge `(u, v)` before it, then the walker that turns round at the end of the path
retraces it. -/
theorem retrace {move : V → V → V} {l : List (V × V)} {e : V × V} (hlast : l.getLast? = some e)
    (hchain : l.IsChain fun d d' => back move d'.swap = d.swap) :
    List.iterate (back move) e.swap l.length = (l.map Prod.swap).reverse := by
  have hreverse : (l.map Prod.swap).reverse.IsChain fun x y => back move x = y := by
    rw [List.isChain_reverse, List.isChain_map]
    exact hchain
  cases hl : (l.map Prod.swap).reverse with
  | nil =>
    have : l = [] := by simpa using hl
    subst this
    rfl
  | cons a r =>
    have ha : a = e.swap := by
      have hhead : (l.map Prod.swap).reverse.head? = some a := by rw [hl]; rfl
      rw [List.head?_reverse, List.getLast?_map, hlast] at hhead
      exact (Option.some.inj hhead).symm
    have hlength : l.length = r.length + 1 := by
      have := congrArg List.length hl
      simpa using this
    rw [hl] at hreverse
    rw [hlength, ← ha, iterate_of_isChain hreverse]

/-! ### Visits -/

/-- How often a walk comes to the place `home`. The start does not count. -/
def visits [DecidableEq V] (move : V → V → ι → V) (home : V) : V × V → List ι → ℕ
  | _, [] => 0
  | e, i :: is => (if (step move e i).2 = home then 1 else 0) + visits move home (step move e i) is

section Visits

variable [DecidableEq V] {home : V} {near far : V → ℕ} {m M : ℕ}

/-- Where no more than `far v` moves lead from `v` to `home`, and no more than `M` from there back
to it, walks come to it often. -/
theorem length_add_le_of_far (hclosed : Closed move E)
    (hfar : ∀ e ∈ E, ∀ i, if move e.1 e.2 i = home then 1 ≤ far e.2
      else far (move e.1 e.2 i) + 1 ≤ far e.2)
    (hhome : far home ≤ M) (he : e ∈ E) (is : List ι) :
    is.length + far (is.foldl (step move) e).2 ≤ far e.2 + M * visits move home e is := by
  induction is generalizing e with
  | nil => exact Nat.le_of_eq (Nat.zero_add _)
  | cons i is ih =>
    have hrest := ih (hclosed e he i)
    have hfirst := hfar e he i
    rw [visits, List.length_cons, List.foldl_cons, Nat.mul_add]
    change if (step move e i).2 = home then 1 ≤ far e.2
      else far (step move e i).2 + 1 ≤ far e.2 at hfirst
    split_ifs at hfirst ⊢ with hv
    · rw [hv] at hrest
      omega
    · omega

/-- Where no fewer than `near v` moves lead from `v` to `home`, and no fewer than `m` from there
back to it, walks do not come to it too often. -/
theorem near_add_le_length (hclosed : Closed move E)
    (hnear : ∀ e ∈ E, ∀ i, if move e.1 e.2 i = home then near e.2 ≤ 1
      else near e.2 ≤ near (move e.1 e.2 i) + 1)
    (hhome : m ≤ near home) (he : e ∈ E) (is : List ι) :
    near e.2 + m * visits move home e is ≤ is.length + near (is.foldl (step move) e).2 := by
  induction is generalizing e with
  | nil => exact Nat.le_of_eq (Nat.zero_add _).symm
  | cons i is ih =>
    have hrest := ih (hclosed e he i)
    have hfirst := hnear e he i
    rw [visits, List.length_cons, List.foldl_cons, Nat.mul_add]
    change if (step move e i).2 = home then near e.2 ≤ 1
      else near e.2 ≤ near (step move e i).2 + 1 at hfirst
    split_ifs at hfirst ⊢ with hv
    · rw [hv] at hrest
      omega
    · omega

end Visits

end DirectedWalk
