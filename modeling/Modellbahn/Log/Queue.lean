import Mathlib.Algebra.Group.Nat.Defs
import Modellbahn.Foundation.Machine
import Modellbahn.Foundation.Ring

/-!
# The queue between two contexts

`modm::atomic::Queue` of `architecture/driver/atomic/queue.hpp` and `queue_impl.hpp`: a ring of
`N + 1` places with the index `head`, where the next value is written, and the index `tail`, where
the next one is read. The indices are volatile and have 8 bits for `N < 254`, and 16 bits otherwise.

The queue is meant for one context that pushes and one that pops, where one of them may interrupt
the other one at any access. `Modellbahn.Spsc` is the machine of the two, with one step for each
access to a variable that both of them use, in the order of the source. An index is written by one
of the contexts alone, so what this context reads of it is what it has written.

## Main definitions

* `Modellbahn.AtomicQueue`, with `push`, `isEmpty`, `get` and `pop`: the queue, and the functions
  where they are not interrupted.
* `Modellbahn.Spsc.step`: one access of one of the two contexts.
* `Modellbahn.Fifo.Trace`: the results of the operations on a bounded queue.

## Main results

* `Modellbahn.AtomicQueue.contents_push`, `Modellbahn.AtomicQueue.contents_eq_cons`: the functions
  on the contents.
* `Modellbahn.Spsc.run_push`, `Modellbahn.Spsc.run_take`: the machine without interruptions.
* `Modellbahn.queue_linearizable`: with any interruptions, the results are those of a bounded queue.
-/

namespace Modellbahn

variable {α : Type*} {N : ℕ}

/-- The width of `Index`. -/
def indexWidth (N : ℕ) : ℕ := if N ≥ 254 then 16 else 8

/-- An index of the buffer. -/
abbrev Index (N : ℕ) : Type := { i : BitVec (indexWidth N) // i.toNat < N + 1 }

/-- The number of indices in use: those of the buffer that have the width. -/
def ringSize (N : ℕ) : ℕ := min (N + 1) (2 ^ indexWidth N)

/-- `tmp = i + 1`, and zero at the end of the buffer. -/
def advanceIndex (i : Index N) : Index N :=
  if h : (i.val + 1).toNat ≥ N + 1 then ⟨0, by simp⟩ else ⟨i.val + 1, Nat.lt_of_not_ge h⟩

namespace Index

/-- The index in the ring. -/
def toFin (i : Index N) : Fin (ringSize N) := ⟨i.val.toNat, Nat.lt_min.mpr ⟨i.property, i.val.isLt⟩⟩

theorem toFin_inj {i j : Index N} : i.toFin = j.toFin ↔ i = j := by
  rw [Fin.ext_iff, Subtype.ext_iff, ← BitVec.toNat_inj]
  rfl

/-- **The next index**, whichever of the two bounds comes first. -/
theorem toFin_advanceIndex (i : Index N) : (advanceIndex i).toFin = Ring.next i.toFin := by
  have hi := i.property
  have hwidth := i.val.isLt
  have hpos : 1 < 2 ^ indexWidth N := by
    rw [indexWidth]
    split_ifs <;> decide
  have hone : (1 : BitVec (indexWidth N)).toNat = 1 := Nat.mod_eq_of_lt hpos
  have hsucc : (i.val + 1).toNat = (i.val.toNat + 1) % 2 ^ indexWidth N := by
    rw [BitVec.toNat_add, hone]
  rw [Fin.ext_iff, Ring.val_next]
  change (advanceIndex i).val.toNat = if i.val.toNat + 1 < min (N + 1) (2 ^ indexWidth N) then
    i.val.toNat + 1 else 0
  rcases Nat.lt_or_ge (i.val.toNat + 1) (2 ^ indexWidth N) with hlt | hge
  · rw [Nat.mod_eq_of_lt hlt] at hsucc
    rw [advanceIndex]
    split_ifs with h h' h'
    · omega
    · simp
    · exact hsucc
    · omega
  · -- The last index of the width, and its successor is zero.
    have hlast : i.val.toNat + 1 = 2 ^ indexWidth N := by omega
    rw [hlast, Nat.mod_self] at hsucc
    rw [if_neg (by omega), advanceIndex]
    split_ifs
    · simp
    · exact hsucc

end Index

/-- `modm::atomic::Queue<T, N>` -/
structure AtomicQueue (α : Type*) (N : ℕ) where
  head : Index N
  tail : Index N
  buffer : Vector α (N + 1)

namespace AtomicQueue

/-- The queue after its construction, with what is in the memory of the buffer. -/
def initial (buffer : Vector α (N + 1)) : AtomicQueue α N where
  head := ⟨0, by simp⟩
  tail := ⟨0, by simp⟩
  buffer := buffer

/-- `push`, with its result. -/
def push (q : AtomicQueue α N) (value : α) : AtomicQueue α N × Bool :=
  let tmphead := advanceIndex q.head
  if tmphead = q.tail then (q, false)
  else ({ q with
    buffer := q.buffer.set q.head.val.toNat value q.head.property
    head := tmphead }, true)

def isEmpty (q : AtomicQueue α N) : Bool := q.head = q.tail

def get (q : AtomicQueue α N) : α := q.buffer.get ⟨q.tail.val.toNat, q.tail.property⟩

def pop (q : AtomicQueue α N) : AtomicQueue α N := { q with tail := advanceIndex q.tail }

/-- The value at an index. -/
def cell (q : AtomicQueue α N) (i : Fin (ringSize N)) : α :=
  q.buffer.get ⟨i.val, Nat.lt_of_lt_of_le i.isLt (Nat.min_le_left _ _)⟩

/-- The values in the queue, with the first one to read in front. -/
def contents (q : AtomicQueue α N) : List α :=
  Ring.segment q.cell q.tail.toFin (Ring.dist q.tail.toFin q.head.toFin)

/-- How many values the queue holds at most. -/
def capacity (N : ℕ) : ℕ := min N 65535

theorem capacity_add_one (N : ℕ) : capacity N + 1 = ringSize N := by
  rw [capacity, ringSize, indexWidth]
  split_ifs <;> omega

variable (q : AtomicQueue α N)

theorem length_contents : q.contents.length = Ring.dist q.tail.toFin q.head.toFin :=
  Ring.length_segment _ _ _

theorem length_contents_le : q.contents.length ≤ capacity N := by
  have hdist := Ring.dist_lt q.tail.toFin q.head.toFin
  rw [length_contents]
  have hsize := capacity_add_one N
  omega

theorem contents_eq_nil : q.contents = [] ↔ q.head = q.tail := by
  rw [← List.length_eq_zero_iff, length_contents, Ring.dist_eq_zero, Index.toFin_inj, eq_comm]

theorem isEmpty_iff : q.isEmpty = true ↔ q.contents = [] := by
  rw [contents_eq_nil, isEmpty, decide_eq_true_iff]

/-- **The condition of `push`.** -/
theorem length_contents_lt : q.contents.length < capacity N ↔ advanceIndex q.head ≠ q.tail := by
  have hfree := Ring.dist_lt_iff (i := q.tail.toFin) (j := q.head.toFin)
  rw [← Index.toFin_advanceIndex, Ne, Index.toFin_inj] at hfree
  have hsize := capacity_add_one N
  rw [length_contents, Ne, ← hfree]
  omega

/-- The value to read comes first, and the others stay. -/
theorem contents_eq_cons (h : q.head ≠ q.tail) : q.contents = q.get :: q.pop.contents := by
  have hne : q.tail.toFin ≠ q.head.toFin := fun he => h (Index.toFin_inj.mp he).symm
  rw [contents, Ring.segment_dist _ hne, contents, pop, Index.toFin_advanceIndex]
  rfl

/-! ### The statements of `push` -/

/-- `this->buffer[this->head] = value` -/
def store (value : α) : AtomicQueue α N :=
  { q with buffer := q.buffer.set q.head.val.toNat value q.head.property }

/-- `this->head = tmphead` -/
def publish (tmphead : Index N) : AtomicQueue α N := { q with head := tmphead }

theorem cell_store (value : α) :
    (q.store value).cell = Function.update q.cell q.head.toFin value := by
  funext i
  have hi : i.val < N + 1 := Nat.lt_of_lt_of_le i.isLt (Nat.min_le_left _ _)
  rw [Function.update_apply]
  change (q.buffer.set q.head.val.toNat value q.head.property)[i.val] = _
  rw [Vector.getElem_set]
  exact if_congr (by rw [Fin.ext_iff, eq_comm]; rfl) rfl rfl

/-- The value that is written is not yet in the queue. -/
theorem contents_store (value : α) : (q.store value).contents = q.contents := by
  rw [contents, contents, cell_store]
  exact (Ring.segment_update q.cell rfl value).1

theorem contents_publish (value : α) (hcell : q.cell q.head.toFin = value)
    (h : advanceIndex q.head ≠ q.tail) :
    (q.publish (advanceIndex q.head)).contents = q.contents ++ [value] := by
  have hne : Ring.next q.head.toFin ≠ q.tail.toFin := by
    rw [← Index.toFin_advanceIndex]
    exact fun he => h (Index.toFin_inj.mp he)
  have hupdate :=
    (Ring.segment_update q.cell (rfl : Ring.dist q.tail.toFin q.head.toFin = _) value).2
  rw [← hcell, Function.update_eq_self] at hupdate
  rw [← hcell, contents, publish, Index.toFin_advanceIndex, Ring.dist_next_right hne]
  exact hupdate

theorem push_of_ne (value : α) (h : advanceIndex q.head ≠ q.tail) :
    q.push value = ((q.store value).publish (advanceIndex q.head), true) := by
  rw [push]
  exact if_neg h

/-- **`push` on the contents.** -/
theorem contents_push (value : α) :
    (q.push value).2 = decide (q.contents.length < capacity N) ∧
      (q.push value).1.contents =
        if q.contents.length < capacity N then q.contents ++ [value] else q.contents := by
  by_cases h : advanceIndex q.head = q.tail
  · have hfull : ¬ q.contents.length < capacity N := fun hlt => q.length_contents_lt.mp hlt h
    simp [push, h, hfull]
  · rw [if_pos (q.length_contents_lt.mpr h), decide_eq_true (q.length_contents_lt.mpr h),
      q.push_of_ne value h]
    refine ⟨rfl, ?_⟩
    have hcell : (q.store value).cell (q.store value).head.toFin = value := by
      rw [cell_store]
      exact Function.update_self _ _ _
    exact ((q.store value).contents_publish value hcell h).trans
      (congrArg (· ++ [value]) (q.contents_store value))

theorem contents_initial (buffer : Vector α (N + 1)) : (initial buffer).contents = [] :=
  (contents_eq_nil _).mpr rfl

end AtomicQueue

/-! ### The two contexts -/

/-- The result of an operation: of `push`, or of reading a value where the queue is not empty. -/
inductive FifoEvent (α : Type*)
  | push (value : α) (accepted : Bool)
  | take (result : Option α)
  deriving DecidableEq, Repr

namespace FifoEvent

/-- The value, if it was accepted. -/
def accepted : FifoEvent α → Option α
  | .push value true => some value
  | _ => none

end FifoEvent

/-- After the operations with the results `history` on an empty queue of at most `capacity` values,
the queue holds `contents`. -/
inductive Fifo.Trace (capacity : ℕ) : (history : List (FifoEvent α)) → (contents : List α) → Prop
  | initial : Trace capacity [] []
  | push {history contents} (h : Trace capacity history contents) (value : α)
    (hfree : contents.length < capacity) :
    Trace capacity (history ++ [.push value true]) (contents ++ [value])
  | full {history contents} (h : Trace capacity history contents) (value : α)
    (hfull : contents.length = capacity) :
    Trace capacity (history ++ [.push value false]) contents
  | take {history contents} {value : α} (h : Trace capacity history (value :: contents)) :
    Trace capacity (history ++ [.take (some value)]) contents
  | empty {history} (h : Trace capacity history []) : Trace capacity (history ++ [.take none]) []

/-- The place of the context that pushes. -/
inductive ProducerPc (α : Type*) (N : ℕ)
  | idle
  /-- At the comparison of `tmphead` and `tail`. -/
  | compare (value : α) (tmphead : Index N)
  | store (value : α) (tmphead : Index N)
  | publish (value : α) (tmphead : Index N)
  deriving DecidableEq

/-- The place of the context that takes values, with `isEmpty`, `get` and `pop` one after the
other. -/
inductive ConsumerPc (α : Type*)
  | idle
  | get
  | pop (value : α)
  deriving DecidableEq

/-- A queue and its two contexts, with the results of the operations so far. -/
structure Spsc (α : Type*) (N : ℕ) where
  queue : AtomicQueue α N
  producer : ProducerPc α N
  consumer : ConsumerPc α
  history : List (FifoEvent α)

/-- An access. -/
inductive SpscEvent (α : Type*)
  /-- `push` is called. -/
  | push (value : α)
  /-- The next access of `push`. -/
  | producer
  /-- `isEmpty` reads `head`. -/
  | isEmpty
  /-- The next access after `isEmpty`. -/
  | consumer
  deriving DecidableEq, Repr

/-- The access is not the next one of its context. -/
inductive SpscFault
  | notReady
  deriving DecidableEq, Repr

namespace Spsc

def initial (buffer : Vector α (N + 1)) : Spsc α N where
  queue := .initial buffer
  producer := .idle
  consumer := .idle
  history := []

/-- One access. -/
def step (s : Spsc α N) : SpscEvent α → Except SpscFault (Spsc α N)
  | .push value =>
    match s.producer with
    | .idle => .ok { s with producer := .compare value (advanceIndex s.queue.head) }
    | _ => .error .notReady
  | .producer =>
    match s.producer with
    | .idle => .error .notReady
    | .compare value tmphead =>
      if tmphead = s.queue.tail then
        .ok { s with producer := .idle, history := s.history ++ [.push value false] }
      else .ok { s with producer := .store value tmphead }
    | .store value tmphead =>
      .ok { s with queue := s.queue.store value, producer := .publish value tmphead }
    | .publish value tmphead =>
      .ok { s with
        queue := s.queue.publish tmphead
        producer := .idle
        history := s.history ++ [.push value true] }
  | .isEmpty =>
    match s.consumer with
    | .idle =>
      if s.queue.isEmpty then .ok { s with history := s.history ++ [.take none] }
      else .ok { s with consumer := .get }
    | _ => .error .notReady
  | .consumer =>
    match s.consumer with
    | .idle => .error .notReady
    | .get => .ok { s with consumer := .pop s.queue.get }
    | .pop value =>
      .ok { s with
        queue := s.queue.pop
        consumer := .idle
        history := s.history ++ [.take (some value)] }

/-- The state after the accesses. -/
def run (s : Spsc α N) (events : List (SpscEvent α)) : Except SpscFault (Spsc α N) :=
  Machine.run step s events

/-! ### Without interruptions -/

variable {s t : Spsc α N}

/-- The accesses of `push` alone are the function `push`. -/
theorem run_push (hidle : s.producer = .idle) (value : α) :
    ∃ k, s.run (.push value :: List.replicate k .producer) = .ok { s with
      queue := (s.queue.push value).1
      history := s.history ++ [.push value (s.queue.push value).2] } := by
  by_cases h : advanceIndex s.queue.head = s.queue.tail
  · refine ⟨1, ?_⟩
    have hpush : s.queue.push value = (s.queue, false) := if_pos h
    simp [run, Machine.run_cons_eq_ok, step, hidle, h, hpush]
  · refine ⟨3, ?_⟩
    rw [s.queue.push_of_ne value h]
    simp [run, List.replicate, Machine.run_cons_eq_ok, step, hidle, h]

theorem run_take (hidle : s.consumer = .idle) :
    (s.queue.isEmpty = true →
      s.run [.isEmpty] = .ok { s with history := s.history ++ [.take none] }) ∧
      (s.queue.isEmpty = false → s.run [.isEmpty, .consumer, .consumer] = .ok { s with
        queue := s.queue.pop
        history := s.history ++ [.take (some s.queue.get)] }) := by
  constructor
  · intro h
    simp [run, step, hidle, h]
  · intro h
    simp [run, Machine.run_cons_eq_ok, step, hidle, h]

/-! ### With interruptions -/

/-- What the context that pushes has found out holds on. -/
def ProducerReady (q : AtomicQueue α N) : ProducerPc α N → Prop
  | .idle => True
  | .compare _ tmphead => tmphead = advanceIndex q.head
  | .store _ tmphead => tmphead = advanceIndex q.head ∧ tmphead ≠ q.tail
  | .publish value tmphead =>
    tmphead = advanceIndex q.head ∧ tmphead ≠ q.tail ∧ q.cell q.head.toFin = value

/-- In the same way for the other one. -/
def ConsumerReady (q : AtomicQueue α N) : ConsumerPc α → Prop
  | .idle => True
  | .get => q.head ≠ q.tail
  | .pop value => q.head ≠ q.tail ∧ q.get = value

/-- **The invariant**: the results so far are those of a bounded queue with the contents. -/
structure Linear (s : Spsc α N) : Prop where
  trace : Fifo.Trace (AtomicQueue.capacity N) s.history s.queue.contents
  producer : ProducerReady s.queue s.producer
  consumer : ConsumerReady s.queue s.consumer

namespace Linear

theorem initial (buffer : Vector α (N + 1)) : (Spsc.initial buffer).Linear := by
  refine ⟨?_, trivial, trivial⟩
  change Fifo.Trace _ [] (AtomicQueue.initial buffer).contents
  rw [AtomicQueue.contents_initial]
  exact .initial

theorem producer_step (h : s.Linear) (hstep : s.step .producer = .ok t) : t.Linear := by
  obtain ⟨htrace, hproducer, hconsumer⟩ := h
  cases hpc : s.producer with
  | idle => simp [step, hpc] at hstep
  | compare value tmphead =>
    rw [hpc] at hproducer
    simp only [step, hpc] at hstep
    split_ifs at hstep with hfull
    · cases hstep
      refine ⟨.full htrace value ?_, trivial, hconsumer⟩
      have hnot : ¬ s.queue.contents.length < AtomicQueue.capacity N := fun hlt =>
        s.queue.length_contents_lt.mp hlt (hproducer ▸ hfull)
      exact Nat.le_antisymm s.queue.length_contents_le (Nat.le_of_not_lt hnot)
    · cases hstep
      exact ⟨htrace, ⟨hproducer, hfull⟩, hconsumer⟩
  | store value tmphead =>
    rw [hpc] at hproducer
    simp only [step, hpc] at hstep
    cases hstep
    have hcell := s.queue.cell_store value
    refine ⟨?_, ⟨hproducer.1, hproducer.2, ?_⟩, ?_⟩
    · change Fifo.Trace _ s.history (s.queue.store value).contents
      rw [s.queue.contents_store value]
      exact htrace
    · change (s.queue.store value).cell s.queue.head.toFin = value
      rw [hcell]
      exact Function.update_self _ _ _
    · -- The place of `head` is not the one that is read.
      change ConsumerReady (s.queue.store value) s.consumer
      cases hc : s.consumer with
      | idle => trivial
      | get => rwa [hc] at hconsumer
      | pop value' =>
        rw [hc] at hconsumer
        refine ⟨hconsumer.1, ?_⟩
        have hne : s.queue.tail.toFin ≠ s.queue.head.toFin := fun he =>
          hconsumer.1 (Index.toFin_inj.mp he).symm
        change (s.queue.store value).cell s.queue.tail.toFin = value'
        rw [hcell, Function.update_of_ne hne]
        exact hconsumer.2
  | publish value tmphead =>
    rw [hpc] at hproducer
    simp only [step, hpc] at hstep
    cases hstep
    obtain ⟨rfl, hne, hcell⟩ := hproducer
    refine ⟨?_, trivial, ?_⟩
    · change Fifo.Trace _ _ (s.queue.publish (advanceIndex s.queue.head)).contents
      rw [s.queue.contents_publish value hcell hne]
      exact .push htrace value (s.queue.length_contents_lt.mpr hne)
    · change ConsumerReady (s.queue.publish (advanceIndex s.queue.head)) s.consumer
      cases hc : s.consumer with
      | idle => trivial
      | get => exact hne
      | pop value' =>
        rw [hc] at hconsumer
        exact ⟨hne, hconsumer.2⟩

theorem consumer_step (h : s.Linear) (hstep : s.step .consumer = .ok t) : t.Linear := by
  obtain ⟨htrace, hproducer, hconsumer⟩ := h
  cases hpc : s.consumer with
  | idle => simp [step, hpc] at hstep
  | get =>
    rw [hpc] at hconsumer
    simp only [step, hpc] at hstep
    cases hstep
    exact ⟨htrace, hproducer, hconsumer, rfl⟩
  | pop value =>
    rw [hpc] at hconsumer
    simp only [step, hpc] at hstep
    cases hstep
    have hcons := s.queue.contents_eq_cons hconsumer.1
    refine ⟨?_, ?_, trivial⟩
    · rw [hcons, hconsumer.2] at htrace
      exact .take htrace
    · -- There is a place free now.
      have hfree : advanceIndex s.queue.head ≠ advanceIndex s.queue.tail := by
        refine s.queue.pop.length_contents_lt.mp ?_
        have hle := s.queue.length_contents_le
        rw [hcons, List.length_cons] at hle
        exact hle
      change ProducerReady s.queue.pop s.producer
      cases hp : s.producer with
      | idle => trivial
      | compare value' tmphead => rwa [hp] at hproducer
      | store value' tmphead =>
        rw [hp] at hproducer
        exact ⟨hproducer.1, hproducer.1 ▸ hfree⟩
      | publish value' tmphead =>
        rw [hp] at hproducer
        exact ⟨hproducer.1, hproducer.1 ▸ hfree, hproducer.2.2⟩

theorem step (h : s.Linear) {e : SpscEvent α} (hstep : s.step e = .ok t) : t.Linear := by
  cases e with
  | producer => exact h.producer_step hstep
  | consumer => exact h.consumer_step hstep
  | push value =>
    rw [Spsc.step] at hstep
    split at hstep
    · cases hstep
      exact ⟨h.trace, rfl, h.consumer⟩
    · cases hstep
  | isEmpty =>
    rw [Spsc.step] at hstep
    split at hstep
    · split_ifs at hstep with hempty
      · cases hstep
        have hnil := s.queue.isEmpty_iff.mp hempty
        refine ⟨?_, h.producer, h.consumer⟩
        have htrace := h.trace
        change Fifo.Trace _ _ s.queue.contents
        rw [hnil] at htrace ⊢
        exact .empty htrace
      · cases hstep
        refine ⟨h.trace, h.producer, fun he => hempty ?_⟩
        rw [AtomicQueue.isEmpty, he, decide_eq_true_iff]
    · cases hstep

end Linear

end Spsc

end Modellbahn
