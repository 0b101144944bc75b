import Modellbahn.Foundation.LinkedRing
import Modellbahn.Foundation.Machine
import Mathlib.Data.List.Rotate

/-!
# The fiber scheduler

The model of `class Scheduler` in `modm/processing/fiber/scheduler.hpp` and of `Task::start` in
`task_impl.hpp`. The tasks are the elements of a type `T`, and their members `next` and `scheduler`
are functions on it. A context switch is the assignment to `current`.

The ready fibers are linked in a ring. `last` is the last one of it, and while fibers run, `current`
is the one that `last` points to. What the ring is for is said by `ReadyQueue`: a list of fibers of
which the first one runs, a fiber that yields goes to the back of it, a fiber that is started joins
it at the back, and a fiber that returns leaves it.

## Main definitions

* `Modellbahn.Scheduler`, `Modellbahn.Scheduler.step`: the scheduler and its operations.
* `Modellbahn.ReadyQueue`, `Modellbahn.ReadyQueue.step`: the queue and its operations.
* `Modellbahn.Scheduler.Represents`: the ring holds the queue.

## Main results

* `Modellbahn.Scheduler.Represents.step`: an operation on the ring is one on the queue.
* `Modellbahn.scheduler_refines_queue`: so is every list of operations.
* `Modellbahn.fiber_turn`: when a ready fiber gets its turn.
-/

namespace Modellbahn

/-- Why an operation on the scheduler has no result. -/
inductive SchedulerFault
  /-- A null pointer is dereferenced or jumped to. -/
  | nullPointer
  /-- The operation does not belong there: `run` inside of a fiber, or a return outside of one. -/
  | misplaced
  deriving DecidableEq, Repr

/-- The members of `Scheduler`, and the members `next` and `scheduler` of the tasks, the latter as
whether it points to the scheduler. -/
structure Scheduler (T : Type) where
  last : Option T
  current : Option T
  next : T → Option T
  scheduled : T → Bool

/-- What happens to the scheduler. -/
inductive SchedulerOp (T : Type)
  /-- `Task::start` of a task. -/
  | start (task : T)
  /-- `Scheduler::run`, called by `main`. -/
  | run
  /-- `this_fiber::yield`. -/
  | yield
  /-- The function of the current fiber returns. -/
  | finish
  deriving DecidableEq, Repr

namespace Scheduler

variable {T : Type} [DecidableEq T]

/-- The scheduler before the first task is constructed. -/
def initial : Scheduler T where
  last := none
  current := none
  next := fun _ => none
  scheduled := fun _ => false

/-- `task->next = pointer`. -/
def setNext (s : Scheduler T) (task : T) (pointer : Option T) : Scheduler T :=
  { s with next := Function.update s.next task pointer }

/-- `task->scheduler = …`. -/
def setScheduled (s : Scheduler T) (task : T) (value : Bool) : Scheduler T :=
  { s with scheduled := Function.update s.scheduled task value }

/-- `Scheduler::runLast`. -/
def runLast (s : Scheduler T) (task : T) : Except SchedulerFault (Scheduler T) :=
  match s.last with
  | none => .error .nullPointer
  | some last =>
    .ok { (s.setNext task (s.next last)).setNext last (some task) with last := some task }

/-- `Scheduler::add`. -/
def add (s : Scheduler T) (task : T) : Except SchedulerFault (Scheduler T) :=
  match s.last with
  | none => .ok { (s.setScheduled task true).setNext task (some task) with last := some task }
  | some _ => (s.setScheduled task true).runLast task

/-- `Task::start`: its result, and the scheduler it leaves. -/
def start (s : Scheduler T) (task : T) : Except SchedulerFault (Bool × Scheduler T) :=
  if s.scheduled task then .ok (false, s) else (s.add task).map fun s => (true, s)

/-- `Scheduler::start`, up to the jump to the first fiber. -/
def run (s : Scheduler T) : Except SchedulerFault (Scheduler T) :=
  match s.last with
  | none => .ok s
  | some last =>
    match s.next last with
    | none => .error .nullPointer
    | some first => .ok { s with current := some first }

/-- `Scheduler::yield`. -/
def yield (s : Scheduler T) : Except SchedulerFault (Scheduler T) :=
  match s.current with
  | none => .ok s
  | some current =>
    match s.next current with
    | none => .error .nullPointer
    | some next => .ok { s with last := some current, current := some next }

/-- `Scheduler::removeCurrent`, with `current` as an argument. -/
def removeCurrent (s : Scheduler T) (current : T) : Except SchedulerFault (Scheduler T) :=
  match s.last with
  | none => .error .nullPointer
  | some last =>
    if current = last then
      .ok { (s.setNext current none).setScheduled current false with last := none }
    else .ok (((s.setNext last (s.next current)).setNext current none).setScheduled current false)

/-- `Scheduler::unschedule`. -/
def unschedule (s : Scheduler T) : Except SchedulerFault (Scheduler T) :=
  match s.current with
  | none => .error .nullPointer
  | some current =>
    match s.removeCurrent current with
    | .error e => .error e
    | .ok s' =>
      match s'.last with
      | none => .ok { s' with current := none }
      | some _ =>
        match s.next current with
        | none => .error .nullPointer
        | some next => .ok { s' with current := some next }

/-- One operation. -/
def step (s : Scheduler T) : SchedulerOp T → Except SchedulerFault (Scheduler T)
  | .start task => (s.start task).map Prod.snd
  | .run => if s.current = none then s.run else .error .misplaced
  | .yield => s.yield
  | .finish => if s.current = none then .error .misplaced else s.unschedule

end Scheduler

/-! ### The queue of ready fibers -/

/-- The ready fibers in the order of their turns. Where fibers run, the first one does. -/
structure ReadyQueue (T : Type) where
  ready : List T
  running : Bool
  deriving DecidableEq, Repr

namespace ReadyQueue

variable {T : Type} [DecidableEq T]

/-- No fiber. -/
def initial : ReadyQueue T := { ready := [], running := false }

/-- The running fiber. -/
def current (q : ReadyQueue T) : Option T := if q.running then q.ready.head? else none

/-- One operation. -/
def step (q : ReadyQueue T) : SchedulerOp T → Except SchedulerFault (ReadyQueue T)
  | .start task => if task ∈ q.ready then .ok q else .ok { q with ready := q.ready ++ [task] }
  | .run =>
    if q.running then .error .misplaced else .ok { q with running := !q.ready.isEmpty }
  | .yield => if q.running then .ok { q with ready := q.ready.rotate 1 } else .ok q
  | .finish =>
    if q.running then .ok { ready := q.ready.tail, running := !q.ready.tail.isEmpty }
    else .error .misplaced

end ReadyQueue

/-! ### The ring holds the queue -/

namespace Scheduler

variable {T : Type} {s : Scheduler T} {q : ReadyQueue T}

/-- The ring with the last node `last` has the nodes `ready`, in this order. -/
def Holds (next : T → Option T) (last : Option T) (ready : List T) : Prop :=
  match last with
  | none => ready = []
  | some z => ∃ l, ready = l ++ [z] ∧ LinkedRing.Ring next l z

theorem holds_none {next : T → Option T} {ready : List T} :
    Holds next none ready ↔ ready = [] := Iff.rfl

theorem holds_some {next : T → Option T} {z : T} {ready : List T} :
    Holds next (some z) ready ↔ ∃ l, ready = l ++ [z] ∧ LinkedRing.Ring next l z := Iff.rfl

/-- The scheduler represents the queue. -/
structure Represents (s : Scheduler T) (q : ReadyQueue T) : Prop where
  holds : Holds s.next s.last q.ready
  scheduled : ∀ task, s.scheduled task = true ↔ task ∈ q.ready
  current : s.current = q.current
  ready_ne_nil : q.running = true → q.ready ≠ []

theorem represents_initial : Represents (initial : Scheduler T) ReadyQueue.initial where
  holds := rfl
  scheduled := fun task => by simp [initial, ReadyQueue.initial]
  current := rfl
  ready_ne_nil := fun h => by cases h

namespace Represents

/-- No fiber runs before `run`, and after the last fiber has returned. -/
theorem current_eq_none_iff (h : Represents s q) : s.current = none ↔ q.running = false := by
  rw [h.current, ReadyQueue.current]
  cases hrunning : q.running with
  | false => simp
  | true =>
    obtain ⟨a, l, hl⟩ := List.exists_cons_of_ne_nil (h.ready_ne_nil hrunning)
    simp [hl]

/-- Where fibers run, the ring has a last node, and the current fiber is the first one. -/
theorem exists_last (h : Represents s q) (hrunning : q.running = true) :
    ∃ l z, s.last = some z ∧ q.ready = l ++ [z] ∧ LinkedRing.Ring s.next l z ∧
      s.current = (l ++ [z]).head? := by
  have hholds := h.holds
  cases hlast : s.last with
  | none =>
    rw [hlast, holds_none] at hholds
    exact absurd hholds (h.ready_ne_nil hrunning)
  | some z =>
    rw [hlast, holds_some] at hholds
    obtain ⟨l, hl, hring⟩ := hholds
    refine ⟨l, z, rfl, hl, hring, ?_⟩
    rw [h.current, ReadyQueue.current, if_pos hrunning, hl]

theorem nodup (h : Represents s q) : q.ready.Nodup := by
  have hholds := h.holds
  cases hlast : s.last with
  | none =>
    rw [hlast, holds_none] at hholds
    rw [hholds]
    exact List.nodup_nil
  | some z =>
    rw [hlast, holds_some] at hholds
    obtain ⟨l, hl, hring⟩ := hholds
    rw [hl]
    exact hring.nodup

variable [DecidableEq T]

theorem start (h : Represents s q) (task : T) :
    ∃ t r, s.step (.start task) = .ok t ∧ q.step (.start task) = .ok r ∧ Represents t r := by
  by_cases hmem : task ∈ q.ready
  · refine ⟨s, q, ?_, if_pos hmem, h⟩
    rw [step, Scheduler.start, if_pos ((h.scheduled task).mpr hmem)]
    rfl
  · have hscheduled : ¬ s.scheduled task = true := fun hs => hmem ((h.scheduled task).mp hs)
    have hmember : ∀ u, Function.update s.scheduled task true u = true ↔
        u ∈ q.ready ++ [task] := by
      intro u
      by_cases hu : u = task
      · simp [hu]
      · rw [Function.update_of_ne hu, h.scheduled u]
        simp [hu]
    have hstep : ∀ t, s.add task = .ok t → s.step (.start task) = .ok t := by
      intro t ht
      rw [step, Scheduler.start, if_neg hscheduled, ht]
      rfl
    have hholds := h.holds
    cases hlast : s.last with
    | none =>
      rw [hlast, holds_none] at hholds
      refine ⟨_, _, hstep _ (by rw [add, hlast]), if_neg hmem, ?_, hmember, ?_, ?_⟩
      · refine ⟨[], by rw [hholds], .singleton ?_⟩
        exact Function.update_self task _ _
      · change s.current = _
        have hrunning : q.running = false := by
          by_contra hr
          exact h.ready_ne_nil (by simpa using hr) hholds
        rw [h.current_eq_none_iff.mpr hrunning, ReadyQueue.current, hrunning]
        rfl
      · intro _
        simp
    | some z =>
      rw [hlast, holds_some] at hholds
      obtain ⟨l, hl, hring⟩ := hholds
      have hadd : s.add task = .ok { ((s.setScheduled task true).setNext task (s.next z)).setNext z
          (some task) with last := some task } := by
        rw [add, hlast]
        simp only [runLast, setScheduled, hlast]
      refine ⟨_, _, hstep _ hadd, if_neg hmem, ?_, hmember, ?_, ?_⟩
      · rw [hl] at hmem ⊢
        exact ⟨l ++ [z], rfl, hring.insert hmem⟩
      · change s.current = _
        rw [h.current, ReadyQueue.current, ReadyQueue.current, hl]
        cases l <;> rfl
      · intro _
        simp

theorem run (h : Represents s q) (hrunning : q.running = false) :
    ∃ t r, s.step .run = .ok t ∧ q.step .run = .ok r ∧ Represents t r := by
  have hcurrent := h.current_eq_none_iff.mpr hrunning
  have hqueue : q.step .run = .ok { q with running := !q.ready.isEmpty } := by
    simp [ReadyQueue.step, hrunning]
  have hholds := h.holds
  cases hlast : s.last with
  | none =>
    rw [hlast, holds_none] at hholds
    refine ⟨s, _, ?_, hqueue, h.holds, h.scheduled, ?_, ?_⟩
    · simp only [step, if_pos hcurrent, Scheduler.run, hlast]
    · rw [hcurrent, ReadyQueue.current, hholds]
      rfl
    · simp [hholds]
  | some z =>
    rw [hlast, holds_some] at hholds
    obtain ⟨l, hl, hring⟩ := hholds
    obtain ⟨first, hfirst⟩ : ∃ first, (l ++ [z]).head? = some first := by
      cases l <;> simp
    have hnext : s.next z = some first := hring.path.next_eq.trans hfirst
    refine ⟨{ s with current := some first }, _, ?_, hqueue, h.holds, h.scheduled, ?_, ?_⟩
    · simp only [step, if_pos hcurrent, Scheduler.run, hlast, hnext]
    · rw [ReadyQueue.current, hl, hfirst]
      simp
    · simp [hl]

theorem yield (h : Represents s q) :
    ∃ t r, s.step .yield = .ok t ∧ q.step .yield = .ok r ∧ Represents t r := by
  cases hrunning : q.running with
  | false =>
    refine ⟨s, q, ?_, by simp [ReadyQueue.step, hrunning], h⟩
    simp only [step, Scheduler.yield, h.current_eq_none_iff.mpr hrunning]
  | true =>
    obtain ⟨l, z, hlast, hl, hring, hcurrent⟩ := h.exists_last hrunning
    have hqueue : q.step .yield = .ok { q with ready := q.ready.rotate 1 } := by
      simp [ReadyQueue.step, hrunning]
    -- The ring is that of `l ++ [z]`; with one node alone the fiber yields to itself.
    cases l with
    | nil =>
      have hnext : s.next z = some z := hring.path
      have hrotate : q.ready.rotate 1 = q.ready := by
        rw [hl]
        simp
      rw [hrotate] at hqueue
      refine ⟨{ s with last := some z, current := some z }, _, ?_, hqueue, ?_, h.scheduled, ?_,
        h.ready_ne_nil⟩
      · have hz : s.current = some z := hcurrent
        simp only [step, Scheduler.yield, hz, hnext]
      · exact ⟨[], hl, hring⟩
      · exact hcurrent.symm.trans h.current
    | cons a l =>
      have ha : s.current = some a := hcurrent
      obtain ⟨first, hfirst⟩ : ∃ first, (l ++ [z]).head? = some first := by
        cases l <;> simp
      have hnext : s.next a = some first := hring.path.2.next_eq.trans hfirst
      have hrotate : q.ready.rotate 1 = l ++ [z] ++ [a] := by
        rw [hl]
        simp
      refine ⟨{ s with last := some a, current := some first }, _, ?_, hqueue, ?_, ?_, ?_, ?_⟩
      · simp only [step, Scheduler.yield, ha, hnext]
      · exact ⟨l ++ [z], hrotate, hring.rotate⟩
      · intro task
        rw [h.scheduled task]
        simp
      · rw [ReadyQueue.current, hrotate, hrunning, if_pos rfl]
        cases l <;> simpa using hfirst.symm
      · simp [hrotate]

theorem finish (h : Represents s q) (hrunning : q.running = true) :
    ∃ t r, s.step .finish = .ok t ∧ q.step .finish = .ok r ∧ Represents t r := by
  obtain ⟨l, z, hlast, hl, hring, hcurrent⟩ := h.exists_last hrunning
  have hne : ¬ s.current = none := by
    rw [h.current_eq_none_iff, hrunning]
    simp
  have hqueue : q.step .finish =
      .ok { ready := q.ready.tail, running := !q.ready.tail.isEmpty } := by
    simp [ReadyQueue.step, hrunning]
  cases l with
  | nil =>
    have hz : s.current = some z := hcurrent
    refine ⟨{ (s.setNext z none).setScheduled z false with last := none, current := none }, _, ?_,
      hqueue, ?_, ?_, ?_, ?_⟩
    · rw [step, if_neg hne, unschedule, hz]
      simp only [removeCurrent, hlast, if_pos]
    · change q.ready.tail = []
      rw [hl]
      rfl
    · intro task
      change Function.update s.scheduled z false task = true ↔ task ∈ q.ready.tail
      by_cases htask : task = z
      · simp [htask, hl]
      · rw [Function.update_of_ne htask, h.scheduled task, hl]
        simp [htask]
    · rw [ReadyQueue.current, hl]
      rfl
    · simp [hl]
  | cons a l =>
    have ha : s.current = some a := hcurrent
    have hnodup : (a :: (l ++ [z])).Nodup := hring.nodup
    have haz : ¬ a = z := fun he => (List.nodup_cons.mp hnodup).1 (he ▸ by simp)
    obtain ⟨first, hfirst⟩ : ∃ first, (l ++ [z]).head? = some first := by
      cases l <;> simp
    have hnext : s.next a = some first := hring.path.2.next_eq.trans hfirst
    have htail : q.ready.tail = l ++ [z] := by rw [hl]; rfl
    refine ⟨{ ((s.setNext z (s.next a)).setNext a none).setScheduled a false with
      current := some first }, _, ?_, hqueue, ?_, ?_, ?_, ?_⟩
    · rw [step, if_neg hne, unschedule, ha]
      simp only [removeCurrent, hlast, if_neg haz, hnext]
      simp only [setScheduled, setNext, hlast]
    · have hlast' : ((s.setNext z (s.next a)).setNext a none).last = some z := hlast
      change Holds _ s.last q.ready.tail
      rw [hlast, htail]
      exact ⟨l, rfl, hring.remove⟩
    · intro task
      change Function.update s.scheduled a false task = true ↔ task ∈ q.ready.tail
      rw [htail]
      by_cases htask : task = a
      · rw [htask, Function.update_self]
        simpa using (List.nodup_cons.mp hnodup).1
      · rw [Function.update_of_ne htask, h.scheduled task, hl]
        simp [htask]
    · rw [ReadyQueue.current, htail]
      simpa using hfirst.symm
    · simp [htail]

/-- **One operation** on the ring is one on the queue. It goes wrong only where it does not
belong. -/
theorem step (h : Represents s q) (op : SchedulerOp T) :
    (∃ t r, s.step op = .ok t ∧ q.step op = .ok r ∧ Represents t r) ∨
      ∃ e, e = .misplaced ∧ s.step op = .error e ∧ q.step op = .error e := by
  cases op with
  | start task => exact Or.inl (h.start task)
  | yield => exact Or.inl h.yield
  | run =>
    cases hrunning : q.running with
    | false => exact Or.inl (h.run hrunning)
    | true =>
      have hne : ¬ s.current = none := by
        rw [h.current_eq_none_iff, hrunning]
        simp
      exact Or.inr ⟨_, rfl, if_neg hne, by simp [ReadyQueue.step, hrunning]⟩
  | finish =>
    cases hrunning : q.running with
    | false =>
      have hcurrent := h.current_eq_none_iff.mpr hrunning
      exact Or.inr ⟨_, rfl, if_pos hcurrent, by simp [ReadyQueue.step, hrunning]⟩
    | true => exact Or.inl (h.finish hrunning)

theorem run_ops (h : Represents s q) (ops : List (SchedulerOp T)) :
    (∃ t r, Machine.run Scheduler.step s ops = .ok t ∧ Machine.run ReadyQueue.step q ops = .ok r ∧
        Represents t r) ∨
      ∃ e, e = .misplaced ∧ Machine.run Scheduler.step s ops = .error e ∧
        Machine.run ReadyQueue.step q ops = .error e :=
  Machine.run_bisim (fun op h => h.step op) h ops

end Represents

end Scheduler

variable {T : Type} [DecidableEq T]

/-- **The ring of the scheduler is a queue.** Whatever the operations since the first task was
constructed, no null pointer is dereferenced or jumped to, and the scheduler represents the queue
after the same operations: the ring holds the ready fibers, each once, in the order of their turns,
exactly they are marked as scheduled, and `current` is the first one while fibers run and null
otherwise. The operations that go wrong are those that do not belong there. -/
theorem scheduler_refines_queue (ops : List (SchedulerOp T)) :
    (∃ s q, Machine.run Scheduler.step Scheduler.initial ops = .ok s ∧
        Machine.run ReadyQueue.step ReadyQueue.initial ops = .ok q ∧ s.Represents q ∧
        q.ready.Nodup) ∨
      Machine.run Scheduler.step Scheduler.initial ops = .error .misplaced ∧
        Machine.run ReadyQueue.step (ReadyQueue.initial : ReadyQueue T) ops =
          .error .misplaced := by
  rcases Scheduler.represents_initial.run_ops ops with ⟨s, q, hs, hq, h⟩ | ⟨e, rfl, hs, hq⟩
  · exact Or.inl ⟨s, q, hs, hq, h, h.nodup⟩
  · exact Or.inr ⟨hs, hq⟩

/-! ### Turns -/

/-- The operation ends the turn of the current fiber. -/
def SchedulerOp.isSwitch : SchedulerOp T → Bool
  | .start _ => false
  | .run => false
  | .yield => true
  | .finish => true

/-- The number of turns that end. -/
def switches (ops : List (SchedulerOp T)) : ℕ := ops.countP SchedulerOp.isSwitch

namespace ReadyQueue

variable {q r : ReadyQueue T} {op : SchedulerOp T} {ops : List (SchedulerOp T)} {u : T} {k : ℕ}

/-- Where no turn ends, every fiber keeps its place. -/
theorem place_of_not_switch (h : q.step op = .ok r) (hop : op.isSwitch = false)
    (hrunning : q.running = true) (hu : q.ready[k]? = some u) :
    r.running = true ∧ r.ready[k]? = some u := by
  cases op with
  | start task =>
    simp only [step] at h
    split_ifs at h with hmem
    · cases h
      exact ⟨hrunning, hu⟩
    · cases h
      have hk : k < q.ready.length := (List.getElem?_eq_some_iff.mp hu).1
      exact ⟨hrunning, by rw [List.getElem?_append_left hk, hu]⟩
  | run => simp [step, hrunning] at h
  | yield => cases hop
  | finish => cases hop

/-- Where a turn ends, every waiting fiber moves up one place, and one that yields is the last
one. -/
theorem place_of_switch (h : q.step op = .ok r) (hop : op.isSwitch = true)
    (hrunning : q.running = true) (hu : q.ready[k + 1]? = some u) :
    r.running = true ∧ r.ready[k]? = some u := by
  cases hready : q.ready with
  | nil => simp [hready] at hu
  | cons a l =>
    rw [hready, List.getElem?_cons_succ] at hu
    have hk : k < l.length := (List.getElem?_eq_some_iff.mp hu).1
    cases op with
    | start task => cases hop
    | run => cases hop
    | yield =>
      simp only [step, if_pos hrunning, hready, List.rotate_cons_succ, List.rotate_zero] at h
      cases h
      exact ⟨hrunning, by rw [List.getElem?_append_left hk, hu]⟩
    | finish =>
      simp only [step, if_pos hrunning, hready, List.tail_cons] at h
      cases h
      have hne : l ≠ [] := List.ne_nil_of_length_pos (Nat.zero_lt_of_lt hk)
      exact ⟨by simpa using hne, hu⟩

/-- **A waiting fiber moves up one place with every turn that ends**, whatever fibers are started
and return in the meantime. -/
theorem place_of_run (h : Machine.run step q ops = .ok r) (hrunning : q.running = true)
    (hu : q.ready[k]? = some u) (hle : switches ops ≤ k) :
    r.running = true ∧ r.ready[k - switches ops]? = some u := by
  induction ops generalizing q k with
  | nil =>
    cases h
    exact ⟨hrunning, hu⟩
  | cons op ops ih =>
    obtain ⟨p, hstep, hrest⟩ := Machine.run_cons_eq_ok.mp h
    cases hop : op.isSwitch with
    | false =>
      have hcount : switches (op :: ops) = switches ops := by simp [switches, hop]
      obtain ⟨hp, hpu⟩ := place_of_not_switch hstep hop hrunning hu
      rw [hcount] at hle ⊢
      exact ih hrest hp hpu hle
    | true =>
      have hcount : switches (op :: ops) = switches ops + 1 := by simp [switches, hop]
      rw [hcount] at hle ⊢
      obtain ⟨j, rfl⟩ : ∃ j, k = j + 1 := ⟨k - 1, by omega⟩
      obtain ⟨hp, hpu⟩ := place_of_switch hstep hop hrunning hu
      rw [Nat.add_sub_add_right]
      exact ih hrest hp hpu (Nat.le_of_succ_le_succ hle)

end ReadyQueue

namespace Scheduler.Represents

variable {s t : Scheduler T} {q : ReadyQueue T} {ops : List (SchedulerOp T)} {u : T} {k : ℕ}

/-- The fiber at the place `k` runs after `k` turns have ended, and not before. -/
theorem current_of_run (h : s.Represents q) (hrunning : q.running = true)
    (hu : q.ready[k]? = some u) (hrun : Machine.run Scheduler.step s ops = .ok t) :
    (switches ops < k → t.current ≠ some u) ∧ (switches ops = k → t.current = some u) := by
  rcases h.run_ops ops with ⟨t', r, ht', hr, htr⟩ | ⟨e, -, he, -⟩
  · obtain rfl : t' = t := Except.ok.inj (ht'.symm.trans hrun)
    have hcurrent : r.running = true → t'.current = r.ready[0]? := by
      intro hrunning'
      rw [htr.current, ReadyQueue.current, if_pos hrunning', List.head?_eq_getElem?]
    constructor
    · intro hlt
      obtain ⟨hrunning', hru⟩ := ReadyQueue.place_of_run hr hrunning hu hlt.le
      have hpos : 0 < k - switches ops := Nat.sub_pos_of_lt hlt
      have hlength := (List.getElem?_eq_some_iff.mp hru).1
      rw [hcurrent hrunning', ← hru]
      exact List.nodup_iff_getElem?_ne_getElem?.mp htr.nodup 0 _ hpos hlength
    · intro heq
      obtain ⟨hrunning', hru⟩ := ReadyQueue.place_of_run hr hrunning hu heq.le
      rw [hcurrent hrunning', ← hru, heq, Nat.sub_self]
  · rw [he] at hrun
    cases hrun

end Scheduler.Represents

/-- **Turns.** While a fiber `t` runs, every scheduled fiber has a place `k` of its own, with the
place 0 for `t`, and it runs after exactly `k` turns have ended, by a yield or a return, whatever
fibers are started and return in the meantime. A fiber that yields while `n` fibers are scheduled
runs again after exactly `n - 1` further turns. -/
theorem fiber_turn (ops : List (SchedulerOp T)) (s : Scheduler T) (t : T)
    (hrun : Machine.run Scheduler.step Scheduler.initial ops = .ok s)
    (hcurrent : s.current = some t) :
    ∃ ready : List T, ready.Nodup ∧ (∀ u, s.scheduled u = true ↔ u ∈ ready) ∧
      ready.head? = some t ∧
      (∀ k u, ready[k]? = some u → ∀ ops' s', Machine.run Scheduler.step s ops' = .ok s' →
        (switches ops' < k → s'.current ≠ some u) ∧ (switches ops' = k → s'.current = some u)) ∧
      ∀ ops' s', Machine.run Scheduler.step s (.yield :: ops') = .ok s' →
        (switches ops' + 1 < ready.length → s'.current ≠ some t) ∧
          (switches ops' + 1 = ready.length → s'.current = some t) := by
  rcases Scheduler.represents_initial.run_ops ops with ⟨s', q, hs', -, h⟩ | ⟨e, -, he, -⟩
  · obtain rfl : s' = s := Except.ok.inj (hs'.symm.trans hrun)
    have hrunning : q.running = true := by
      by_contra hr
      rw [h.current_eq_none_iff.mpr (by simpa using hr)] at hcurrent
      cases hcurrent
    have hhead : q.ready.head? = some t := by
      rw [← hcurrent, h.current, ReadyQueue.current, if_pos hrunning]
    refine ⟨q.ready, h.nodup, h.scheduled, hhead, ?_, ?_⟩
    · intro k u hu ops' s'' hs''
      exact h.current_of_run hrunning hu hs''
    · intro ops' s'' hs''
      obtain ⟨l, hl⟩ : ∃ l, q.ready = t :: l := by
        cases hready : q.ready with
        | nil => simp [hready] at hhead
        | cons a l => exact ⟨l, by simpa [hready] using hhead⟩
      -- After the yield `t` is at the last place.
      obtain ⟨v, r, hv, hr, hvr⟩ := h.yield
      have hready : r.running = true ∧ r.ready = l ++ [t] := by
        simp only [ReadyQueue.step, if_pos hrunning, hl] at hr
        cases hr
        simp [hrunning]
      have hplace : r.ready[l.length]? = some t := by
        rw [hready.2]
        simp
      rw [Machine.run_cons_of_ok hv] at hs''
      have hturn := hvr.current_of_run hready.1 hplace hs''
      rw [hl, List.length_cons]
      exact ⟨fun hlt => hturn.1 (by omega), fun heq => hturn.2 (by omega)⟩
  · rw [he] at hrun
    cases hrun

/-- Three fibers are started, and the first one runs. -/
theorem fiber_turn_three :
    ∃ s : Scheduler (Fin 3),
      Machine.run Scheduler.step Scheduler.initial [.start 0, .start 1, .start 2, .run] = .ok s ∧
      s.current = some 0 ∧
      ∃ ready : List (Fin 3), ready.Nodup ∧ (∀ u, s.scheduled u = true ↔ u ∈ ready) ∧
        ready.head? = some 0 ∧
        (∀ k u, ready[k]? = some u → ∀ ops' s', Machine.run Scheduler.step s ops' = .ok s' →
          (switches ops' < k → s'.current ≠ some u) ∧
            (switches ops' = k → s'.current = some u)) ∧
        ∀ ops' s', Machine.run Scheduler.step s (.yield :: ops') = .ok s' →
          (switches ops' + 1 < ready.length → s'.current ≠ some 0) ∧
            (switches ops' + 1 = ready.length → s'.current = some 0) :=
  ⟨_, rfl, rfl, fiber_turn [.start 0, .start 1, .start 2, .run] _ 0 rfl rfl⟩

end Modellbahn
