import Mathlib.Data.List.Induction
import Mathlib.Data.List.Forall2
import Mathlib.Tactic.Common

/-!
# Runs of machines with inputs

A machine is a step function `step : σ → ι → Except ε σ` from a state and an input to the next
state, or to an error with which it stops. `Machine.run step s is` is the state after the inputs
`is`, and `Machine.trail step s is` the list of all states on the way, the first and the last one
included.

## Main results

* `Machine.exists_run`: steps that succeed and keep an invariant make runs that do.
* `Machine.run_invariant`, `Machine.run_history`, `Machine.run_lockstep`: what every step keeps,
  every run keeps.
* `Machine.run_history_along`: the same under an assumption on the run.
* `Machine.exists_trail`: a run has a trail, which ends with the last state.
* `Machine.run_map`, `Machine.trail_map`: simulation by a machine that cannot fail.
* `Machine.run_bisim`: two machines that succeed and fail together.
* `Machine.trail_lockstep`: a relation between two machines kept by every step.
-/

namespace Machine

variable {σ τ ι ε : Type*}

/-- The state of the machine after the inputs `is`. -/
def run (step : σ → ι → Except ε σ) (s : σ) (is : List ι) : Except ε σ :=
  is.foldlM step s

variable {step : σ → ι → Except ε σ}

@[simp] theorem run_nil (s : σ) : run step s [] = .ok s := rfl

theorem run_cons (s : σ) (i : ι) (is : List ι) :
    run step s (i :: is) = (step s i).bind fun t => run step t is :=
  List.foldlM_cons

theorem run_cons_of_ok {s t : σ} {i : ι} (h : step s i = .ok t) (is : List ι) :
    run step s (i :: is) = run step t is := by
  rw [run_cons, h]
  rfl

theorem run_cons_eq_ok {s u : σ} {i : ι} {is : List ι} :
    run step s (i :: is) = .ok u ↔ ∃ t, step s i = .ok t ∧ run step t is = .ok u := by
  rw [run_cons]
  cases h : step s i with
  | error e => simp [Except.bind]
  | ok t => simp [Except.bind]

theorem run_append_eq_ok {s u : σ} {is js : List ι} :
    run step s (is ++ js) = .ok u ↔ ∃ t, run step s is = .ok t ∧ run step t js = .ok u := by
  induction is generalizing s with
  | nil => simp
  | cons i is ih =>
    rw [List.cons_append, run_cons_eq_ok]
    constructor
    · rintro ⟨t, hst, htu⟩
      obtain ⟨v, htv, hvu⟩ := ih.mp htu
      exact ⟨v, run_cons_eq_ok.mpr ⟨t, hst, htv⟩, hvu⟩
    · rintro ⟨v, hsv, hvu⟩
      obtain ⟨t, hst, htv⟩ := run_cons_eq_ok.mp hsv
      exact ⟨t, hst, ih.mpr ⟨v, htv, hvu⟩⟩

@[simp] theorem run_singleton (s : σ) (i : ι) : run step s [i] = step s i := by
  rw [run_cons]
  cases step s i <;> rfl

theorem run_concat_eq_ok {s u : σ} {is : List ι} {i : ι} :
    run step s (is ++ [i]) = .ok u ↔ ∃ t, run step s is = .ok t ∧ step t i = .ok u := by
  simp [run_append_eq_ok]

theorem run_concat_eq_error {s : σ} {is : List ι} {i : ι} {e : ε} :
    run step s (is ++ [i]) = .error e ↔
      run step s is = .error e ∨ ∃ t, run step s is = .ok t ∧ step t i = .error e := by
  have happend : run step s (is ++ [i]) = (run step s is).bind fun t => run step t [i] :=
    List.foldlM_append
  rw [happend]
  cases run step s is with
  | error e' => simp [Except.bind]
  | ok t => simp [Except.bind]

theorem exists_ok_of_map {α β : Type*} {x : Except ε α} {g : α → β} {b : β}
    (h : x.map g = .ok b) : ∃ a, x = .ok a ∧ g a = b := by
  cases x with
  | error e => cases h
  | ok a => exact ⟨a, rfl, Except.ok.inj h⟩

theorem exists_ok_of_bind {α β : Type*} {x : Except ε α} {g : α → Except ε β} {b : β}
    (h : x.bind g = .ok b) : ∃ a, x = .ok a ∧ g a = .ok b := by
  cases x with
  | error e => cases h
  | ok a => exact ⟨a, rfl, h⟩

/-! ### Invariants -/

/-- **Safe runs.** If from every state with `Inv` each input leads to a state with `Inv`, then so
does each list of inputs. -/
theorem exists_run {Inv : σ → Prop} (hstep : ∀ s i, Inv s → ∃ t, step s i = .ok t ∧ Inv t)
    {s : σ} (hs : Inv s) (is : List ι) : ∃ t, run step s is = .ok t ∧ Inv t := by
  induction is generalizing s with
  | nil => exact ⟨s, rfl, hs⟩
  | cons i is ih =>
    obtain ⟨t, hst, ht⟩ := hstep s i hs
    obtain ⟨u, htu, hu⟩ := ih ht
    exact ⟨u, run_cons_eq_ok.mpr ⟨t, hst, htu⟩, hu⟩

/-- An invariant kept by every successful step holds after every successful run. -/
theorem run_invariant {motive : σ → Prop}
    (hstep : ∀ {s i t}, motive s → step s i = .ok t → motive t) {s t : σ} {is : List ι}
    (hs : motive s) (h : run step s is = .ok t) : motive t := by
  induction is generalizing s with
  | nil => cases h; exact hs
  | cons i is ih =>
    obtain ⟨u, hsu, hut⟩ := run_cons_eq_ok.mp h
    exact ih (hstep hs hsu) hut

/-- **History.** A property of the inputs so far and the state, kept by every successful step, holds
after every successful run. -/
theorem run_history {motive : List ι → σ → Prop}
    (hstep : ∀ {is s i t}, motive is s → step s i = .ok t → motive (is ++ [i]) t) {s t : σ}
    {is : List ι} (hs : motive [] s) (h : run step s is = .ok t) : motive is t := by
  induction is using List.reverseRecOn generalizing t with
  | nil => cases h; exact hs
  | append_singleton is i ih =>
    obtain ⟨u, hsu, hut⟩ := run_concat_eq_ok.mp h
    exact hstep (ih hsu) hut

/-- A relation kept by the successful steps of two machines on equal inputs is kept by their
runs. -/
theorem run_lockstep {step' : τ → ι → Except ε τ} {R : σ → τ → Prop}
    (hstep : ∀ {s a i t b}, R s a → step s i = .ok t → step' a i = .ok b → R t b) {s t : σ}
    {a b : τ} {is : List ι} (hs : R s a) (h : run step s is = .ok t)
    (h' : run step' a is = .ok b) : R t b := by
  induction is generalizing s a with
  | nil => cases h; cases h'; exact hs
  | cons i is ih =>
    obtain ⟨u, hsu, hut⟩ := run_cons_eq_ok.mp h
    obtain ⟨v, hav, hvb⟩ := run_cons_eq_ok.mp h'
    exact ih (hstep hs hsu hav) hut hvb

/-- **Simulation.** If `f` maps every step to a step of a machine `next` that cannot fail, it maps
runs to its runs. -/
theorem run_map {next : τ → ι → τ} {Inv : σ → Prop} {f : σ → τ}
    (hstep : ∀ {s i t}, Inv s → step s i = .ok t → Inv t ∧ f t = next (f s) i) {s t : σ}
    {is : List ι} (hs : Inv s) (h : run step s is = .ok t) : f t = is.foldl next (f s) := by
  induction is generalizing s with
  | nil => cases h; rfl
  | cons i is ih =>
    obtain ⟨u, hsu, hut⟩ := run_cons_eq_ok.mp h
    obtain ⟨hu, hf⟩ := hstep hs hsu
    rw [List.foldl_cons, ← hf, ih hu hut]

/-- **Bisimulation.** Two machines that on related states either both make a step to related states
or both stop with one of the errors of `E` do so on every list of inputs. -/
theorem run_bisim {step' : τ → ι → Except ε τ} {R : σ → τ → Prop} {E : ε → Prop}
    (hstep : ∀ {s a} i, R s a → (∃ t b, step s i = .ok t ∧ step' a i = .ok b ∧ R t b) ∨
      ∃ e, E e ∧ step s i = .error e ∧ step' a i = .error e) {s : σ} {a : τ} (hs : R s a)
    (is : List ι) :
    (∃ t b, run step s is = .ok t ∧ run step' a is = .ok b ∧ R t b) ∨
      ∃ e, E e ∧ run step s is = .error e ∧ run step' a is = .error e := by
  induction is generalizing s a with
  | nil => exact Or.inl ⟨s, a, rfl, rfl, hs⟩
  | cons i is ih =>
    rcases hstep i hs with ⟨t, b, hst, hab, htb⟩ | ⟨e, he, hse, hae⟩
    · rw [run_cons_of_ok hst, run_cons_of_ok hab]
      exact ih htb
    · refine Or.inr ⟨e, he, ?_, ?_⟩
      · rw [run_cons, hse]
        rfl
      · rw [run_cons, hae]
        rfl

/-! ### Assumptions on a run -/

/-- `P` holds of every state of the run on the inputs `is`, with the input that it gets. -/
def Along (step : σ → ι → Except ε σ) (P : σ → ι → Prop) : σ → List ι → Prop
  | _, [] => True
  | s, i :: is => P s i ∧ ∀ t ∈ (step s i).toOption, Along step P t is

variable {P : σ → ι → Prop}

instance [∀ s i, Decidable (P s i)] : ∀ s is, Decidable (Along step P s is)
  | _, [] => isTrue trivial
  | s, i :: is =>
    have : ∀ t, Decidable (Along step P t is) := fun t => instDecidableAlong t is
    inferInstanceAs (Decidable (P s i ∧ ∀ t ∈ (step s i).toOption, Along step P t is))

theorem along_append {s t : σ} {is js : List ι} (h : Along step P s (is ++ js))
    (hrun : run step s is = .ok t) : Along step P s is ∧ Along step P t js := by
  induction is generalizing s with
  | nil =>
    cases hrun
    exact ⟨trivial, h⟩
  | cons i is ih =>
    obtain ⟨u, hsu, hut⟩ := run_cons_eq_ok.mp hrun
    have hu : (step s i).toOption = some u := by
      rw [hsu]
      rfl
    obtain ⟨his, hjs⟩ := ih (h.2 u hu) hut
    refine ⟨⟨h.1, fun v hv => ?_⟩, hjs⟩
    obtain rfl : u = v := Option.some.inj (hu.symm.trans hv)
    exact his

/-- **History under an assumption.** -/
theorem run_history_along {motive : List ι → σ → Prop}
    (hstep : ∀ {is s i t}, motive is s → P s i → step s i = .ok t → motive (is ++ [i]) t)
    {s t : σ} {is : List ι} (hs : motive [] s) (halong : Along step P s is)
    (h : run step s is = .ok t) : motive is t := by
  induction is using List.reverseRecOn generalizing t with
  | nil => cases h; exact hs
  | append_singleton is i ih =>
    obtain ⟨u, hsu, hut⟩ := run_concat_eq_ok.mp h
    obtain ⟨hbefore, hlast⟩ := along_append halong hsu
    exact hstep (ih hbefore hsu) hlast.1 hut

/-! ### Trails -/

/-- The states of the run on the inputs `is`, from `s` to the last one. -/
def trail (step : σ → ι → Except ε σ) (s : σ) (is : List ι) : Except ε (List σ) :=
  is.scanlM step s

@[simp] theorem trail_nil (s : σ) : trail step s [] = .ok [s] :=
  List.scanlM_nil

theorem trail_cons_eq_ok {s : σ} {i : ι} {is : List ι} {l : List σ} :
    trail step s (i :: is) = .ok l ↔
      ∃ t l', step s i = .ok t ∧ trail step t is = .ok l' ∧ l = s :: l' := by
  rw [trail, List.scanlM_cons]
  cases h : step s i with
  | error e => simp [bind, Except.bind]
  | ok t =>
    cases h' : List.scanlM step t is with
    | error e => simp [bind, Except.bind, trail, h']
    | ok l' => simp [bind, Except.bind, pure, Except.pure, trail, h', eq_comm]

/-- **A run has a trail**, which ends with the state after the run. -/
theorem exists_trail {s t : σ} {is : List ι} (h : run step s is = .ok t) :
    ∃ l, trail step s is = .ok l ∧ l.getLast? = some t := by
  induction is generalizing s with
  | nil => cases h; exact ⟨[_], trail_nil _, rfl⟩
  | cons i is ih =>
    obtain ⟨u, hsu, hut⟩ := run_cons_eq_ok.mp h
    obtain ⟨l, hl, hlast⟩ := ih hut
    refine ⟨s :: l, trail_cons_eq_ok.mpr ⟨u, l, hsu, hl, rfl⟩, ?_⟩
    rw [List.getLast?_cons, hlast]
    rfl

theorem trail_eq_cons {s : σ} {is : List ι} {l : List σ} (h : trail step s is = .ok l) :
    ∃ l', l = s :: l' := by
  cases is with
  | nil => exact ⟨[], (Except.ok.inj h).symm⟩
  | cons i is =>
    obtain ⟨-, l', -, -, rfl⟩ := trail_cons_eq_ok.mp h
    exact ⟨l', rfl⟩

theorem trail_map {next : τ → ι → τ} {Inv : σ → Prop} {f : σ → τ}
    (hstep : ∀ {s i t}, Inv s → step s i = .ok t → Inv t ∧ f t = next (f s) i) {s : σ}
    {is : List ι} {l : List σ} (hs : Inv s) (h : trail step s is = .ok l) :
    l.map f = is.scanl next (f s) := by
  induction is generalizing s l with
  | nil => cases h; simp
  | cons i is ih =>
    obtain ⟨t, l', hst, hl', rfl⟩ := trail_cons_eq_ok.mp h
    obtain ⟨ht, hf⟩ := hstep hs hst
    rw [List.map_cons, List.scanl_cons, ih ht hl', hf]

/-- A relation kept by the successful steps of two machines on equal inputs relates their trails. -/
theorem trail_lockstep {step' : τ → ι → Except ε τ} {R : σ → τ → Prop}
    (hstep : ∀ {s a i t b}, R s a → step s i = .ok t → step' a i = .ok b → R t b) {s : σ} {a : τ}
    {is : List ι} {l : List σ} {l' : List τ} (hs : R s a) (h : trail step s is = .ok l)
    (h' : trail step' a is = .ok l') : List.Forall₂ R l l' := by
  induction is generalizing s a l l' with
  | nil =>
    cases h
    cases h'
    exact .cons hs .nil
  | cons i is ih =>
    obtain ⟨t, u, hst, hu, rfl⟩ := trail_cons_eq_ok.mp h
    obtain ⟨b, u', hab, hu', rfl⟩ := trail_cons_eq_ok.mp h'
    exact .cons hs (ih (hstep hs hst hab) hu hu')

end Machine
