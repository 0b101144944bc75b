import Modellbahn.Basic
import Modellbahn.Log.Queue

/-!
# The way of the log

The log goes byte by byte through `IODeviceWrapper<Itm, BlockIfFull>` of `io/iodevice_wrapper.hpp`,
which calls `Itm::write` of `platform/itm/itm.cpp` until it succeeds. `Itm` keeps one byte in a
queue and up to four in the word `buffer`, and hands them to the port of the trace unit in one, two
or four bytes at a time, whenever `write` finds its queue full. Nothing else calls `Itm::update`, so
that the last bytes of the log stay behind until there is more to write.

The state of the port when `write_itm` asks for it is an input. The bytes that it is given are
recorded in `sent`, the lowest one of a word first; what `write_itm` discards while the unit is
disabled is not.

## Main definitions

* `Modellbahn.Itm`, with `update` and `write`.
* `Modellbahn.LogDevice.step`: the next text, or one call of `Itm::write` or `Itm::update`.

## Main results

* `Modellbahn.Itm.update_spec`: what `update` keeps, hands over and loses.
* `Modellbahn.log_delivered`: the log arrives in order, up to five bytes.
-/

namespace Modellbahn

/-! ### The bytes of words -/

/-- The bytes that a 16-bit access writes, the lowest one first. -/
def halfBytes (h : BitVec 16) : List Byte := [h.setWidth 8, (h >>> 8).setWidth 8]

/-- The bytes that a 32-bit access writes. -/
def wordBytes (w : BitVec 32) : List Byte :=
  [w.setWidth 8, (w >>> 8).setWidth 8, (w >>> 16).setWidth 8, (w >>> 24).setWidth 8]

/-- A byte that is shifted in comes last. -/
theorem wordBytes_shiftIn (w : BitVec 32) (data : Byte) :
    wordBytes ((w >>> 8) ||| (data.setWidth 32 <<< 24)) = (wordBytes w).drop 1 ++ [data] := by
  simp only [wordBytes, List.drop_succ_cons, List.drop_zero, List.cons_append, List.nil_append,
    List.cons.injEq, and_true]
  refine ⟨?_, ?_, ?_, ?_⟩ <;> ext i hi <;> simp <;> grind

theorem halfBytes_upper (w : BitVec 32) :
    halfBytes ((w >>> 16).setWidth 16) = (wordBytes w).drop 2 := by
  simp only [halfBytes, wordBytes, List.drop_succ_cons, List.drop_zero, List.cons.injEq, and_true]
  constructor
  · ext i hi
    simp only [BitVec.getElem_setWidth, BitVec.getLsbD_setWidth, BitVec.getLsbD_ushiftRight]
    grind
  · ext i hi
    simp only [BitVec.getElem_setWidth, BitVec.getLsbD_setWidth, BitVec.getLsbD_ushiftRight]
    grind

theorem halfBytes_middle (w : BitVec 32) :
    halfBytes (((w <<< 8) >>> 16).setWidth 16) = ((wordBytes w).drop 1).take 2 := by
  simp only [halfBytes, wordBytes, List.drop_succ_cons, List.drop_zero, List.take_succ_cons,
    List.take_zero, List.cons.injEq, and_true]
  refine ⟨?_, ?_⟩ <;> ext i hi <;> simp <;> grind

/-- The mask keeps the last byte. -/
theorem wordBytes_last (w : BitVec 32) :
    (wordBytes (w &&& (0xff <<< 24))).drop 3 = (wordBytes w).drop 3 := by
  simp only [wordBytes, List.drop_succ_cons, List.drop_zero, List.cons.injEq, and_true]
  have hmask : ((0xff <<< 24 : BitVec 32) >>> 24).setWidth 8 = BitVec.allOnes 8 := by decide
  rw [BitVec.ushiftRight_and_distrib, BitVec.setWidth_and, hmask, BitVec.and_allOnes]

theorem toNat_add_one {size : BitVec 8} (h : size.toNat < 4) :
    (size + 1).toNat = size.toNat + 1 := by
  bv_omega

/-! ### The trace unit -/

/-- Port 0 when `write_itm` asks for it: not enabled, busy with the previous write, or ready. -/
inductive PortState
  | disabled
  | busy
  | ready
  deriving DecidableEq, Repr

/-- `txBuffer`, the static variables of `Itm::update`, and what the port was given. -/
structure Itm where
  txBuffer : AtomicQueue Byte 1
  buffer : BitVec 32
  size : BitVec 8
  sent : List Byte
  size_le : size.toNat ≤ 4

/-- `Itm::write_itm`: its result, and the bytes for the port. -/
def writeItm (port : PortState) (data : BitVec 32) (size : BitVec 8) : Bool × List Byte :=
  match port with
  | .disabled => (true, [])
  | .busy => (false, [])
  | .ready =>
    if size = 1 then (true, [(data >>> 24).setWidth 8])
    else if size = 2 then (true, halfBytes ((data >>> 16).setWidth 16))
    else if size = 4 then (true, wordBytes data)
    else (false, [])

namespace Itm

/-- Before the first write, with what is in the memory of `txBuffer`. -/
def initial (memory : Vector Byte 2) : Itm where
  txBuffer := .initial memory
  buffer := 0
  size := 0
  sent := []
  size_le := Nat.zero_le 4

/-- One pass of the loop of `update`. -/
def collect (s : Itm) (h : s.size.toNat < 4) : Itm where
  txBuffer := s.txBuffer.pop
  buffer := (s.buffer >>> 8) ||| (s.txBuffer.get.setWidth 32 <<< 24)
  size := s.size + 1
  sent := s.sent
  size_le := by
    rw [toNat_add_one h]
    exact h

/-- The loop of `update`, which makes at most four passes. -/
def collectAll : (passes : ℕ) → Itm → Itm
  | 0, s => s
  | passes + 1, s =>
    if h : ¬ s.txBuffer.isEmpty ∧ s.size.toNat < 4 then collectAll passes (s.collect h.2) else s

/-- The rest of `update`. -/
def handOver (s : Itm) (port : PortState) : Itm :=
  if s.size = 3 then
    let (done, bytes) := writeItm port (s.buffer <<< 8) 2
    if done then { s with
      size := 1
      buffer := s.buffer &&& (0xff <<< 24)
      sent := s.sent ++ bytes
      size_le := by decide }
    else s
  else
    let (done, bytes) := writeItm port s.buffer s.size
    if done then { s with
      size := 0
      buffer := 0
      sent := s.sent ++ bytes
      size_le := by decide }
    else s

/-- `Itm::update` -/
def update (s : Itm) (port : PortState) : Itm := (collectAll 4 s).handOver port

/-- `Itm::write`, with its result. -/
def write (s : Itm) (data : Byte) (port : PortState) : Itm × Bool :=
  if (s.txBuffer.push data).2 then ({ s with txBuffer := (s.txBuffer.push data).1 }, true)
  else
    let t := s.update port
    ({ t with txBuffer := (t.txBuffer.push data).1 }, (t.txBuffer.push data).2)

/-! ### What is on the way -/

/-- The bytes in `buffer`. -/
def buffered (s : Itm) : List Byte := (wordBytes s.buffer).drop (4 - s.size.toNat)

/-- The bytes on the way to the port. -/
def held (s : Itm) : List Byte := s.buffered ++ s.txBuffer.contents

theorem length_buffered (s : Itm) : s.buffered.length = s.size.toNat := by
  have hsize := s.size_le
  rw [buffered, List.length_drop, wordBytes, List.length_cons, List.length_cons, List.length_cons,
    List.length_cons, List.length_nil]
  omega

theorem length_contents_le (s : Itm) : s.txBuffer.contents.length ≤ 1 :=
  s.txBuffer.length_contents_le

/-- **A byte moves on** from the queue to `buffer`. -/
theorem collect_held (s : Itm) (hempty : ¬ s.txBuffer.isEmpty) (h : s.size.toNat < 4) :
    (s.collect h).held = s.held ∧ (s.collect h).sent = s.sent ∧
      (s.collect h).size.toNat = s.size.toNat + 1 ∧
      (s.collect h).txBuffer.contents.length + 1 = s.txBuffer.contents.length := by
  have hne : s.txBuffer.head ≠ s.txBuffer.tail := by
    rwa [AtomicQueue.isEmpty, decide_eq_true_iff] at hempty
  have hcons := s.txBuffer.contents_eq_cons hne
  have hsize : (s.collect h).size.toNat = s.size.toNat + 1 := toNat_add_one h
  refine ⟨?_, rfl, hsize, by rw [hcons]; rfl⟩
  have hdrop : (s.collect h).buffered = s.buffered ++ [s.txBuffer.get] := by
    rw [buffered, hsize]
    change (wordBytes ((s.buffer >>> 8) ||| (s.txBuffer.get.setWidth 32 <<< 24))).drop _ = _
    rw [wordBytes_shiftIn, List.drop_append_of_le_length (by simp [wordBytes]),
      List.drop_drop, buffered]
    congr 2
    omega
  rw [held, held, hdrop, hcons, List.append_assoc]
  rfl

/-- **The loop of `update`** ends with an empty queue or four bytes in `buffer`. -/
theorem collectAll_spec (passes : ℕ) (s : Itm) (hpasses : 4 ≤ s.size.toNat + passes) :
    (collectAll passes s).held = s.held ∧ (collectAll passes s).sent = s.sent ∧
      (collectAll passes s).size.toNat + (collectAll passes s).txBuffer.contents.length =
        s.size.toNat + s.txBuffer.contents.length ∧
      ((collectAll passes s).txBuffer.contents = [] ∨ (collectAll passes s).size.toNat = 4) := by
  have hle := s.size_le
  induction passes generalizing s with
  | zero => exact ⟨rfl, rfl, rfl, Or.inr (Nat.le_antisymm hle hpasses)⟩
  | succ passes ih =>
    rw [collectAll]
    split_ifs with h
    · obtain ⟨hheld, hsent, hsize, hlength⟩ := s.collect_held h.1 h.2
      obtain ⟨hheld', hsent', hlength', hend⟩ :=
        ih (s.collect h.2) (by omega) (s.collect h.2).size_le
      exact ⟨hheld'.trans hheld, hsent'.trans hsent, by omega, hend⟩
    · refine ⟨rfl, rfl, rfl, ?_⟩
      by_cases hempty : s.txBuffer.isEmpty = true
      · exact Or.inl (s.txBuffer.isEmpty_iff.mp hempty)
      · exact Or.inr (Nat.le_antisymm hle (Nat.le_of_not_lt fun hlt => h ⟨hempty, hlt⟩))

/-- A ready port takes what is in `buffer`, but not three bytes at once. -/
theorem writeItm_buffered (s : Itm) (h3 : s.size ≠ 3) :
    writeItm .ready s.buffer s.size = (true, s.buffered) ∨
      s.size = 0 ∧ writeItm .ready s.buffer s.size = (false, []) := by
  have hsize := s.size_le
  obtain h0 | h1 | h2 | h4 : s.size = 0 ∨ s.size = 1 ∨ s.size = 2 ∨ s.size = 4 := by bv_omega
  · exact Or.inr ⟨h0, by rw [h0]; rfl⟩
  · left
    rw [buffered, h1]
    rfl
  · left
    rw [buffered, h2]
    exact congrArg (Prod.mk true) (halfBytes_upper s.buffer)
  · left
    rw [buffered, h4]
    rfl

/-- **The rest of `update`** takes bytes from the front of `buffer`, where the port is not busy. -/
theorem handOver_spec (s : Itm) (port : PortState) :
    (s.handOver port).txBuffer = s.txBuffer ∧
      (∃ gone, s.buffered = gone ++ (s.handOver port).buffered ∧
        (s.handOver port).sent = s.sent ++ if port = .disabled then [] else gone) ∧
      (s.handOver port).size.toNat =
        if port = .busy then s.size.toNat else if s.size = 3 then 1 else 0 := by
  by_cases h3 : s.size = 3
  · have hbuffered : s.buffered = ((wordBytes s.buffer).drop 1).take 2 ++
        (wordBytes (s.buffer &&& (0xff <<< 24))).drop 3 := by
      rw [wordBytes_last, buffered, h3]
      exact (List.take_append_drop 2 _).symm
    rw [handOver, if_pos h3, if_pos h3]
    cases port with
    | disabled => exact ⟨rfl, ⟨_, hbuffered, by simp [writeItm]⟩, rfl⟩
    | busy => exact ⟨rfl, ⟨[], rfl, by simp [writeItm]⟩, rfl⟩
    | ready => exact ⟨rfl, ⟨_, hbuffered, by simp [writeItm, halfBytes_middle]⟩, rfl⟩
  · rw [handOver, if_neg h3, if_neg h3]
    cases port with
    | disabled => exact ⟨rfl, ⟨s.buffered, (List.append_nil _).symm, by simp [writeItm]⟩, rfl⟩
    | busy => exact ⟨rfl, ⟨[], rfl, by simp [writeItm]⟩, rfl⟩
    | ready =>
      rcases s.writeItm_buffered h3 with hwritten | ⟨h0, hwritten⟩
      · simp only [hwritten]
        exact ⟨rfl, ⟨s.buffered, (List.append_nil _).symm, rfl⟩, rfl⟩
      · -- There is nothing in `buffer`.
        simp only [hwritten]
        exact ⟨rfl, ⟨[], rfl, (List.append_nil _).symm⟩, congrArg BitVec.toNat h0⟩

/-- From `s` to `t` bytes leave at the front, for the port unless it is disabled, and `added` comes
in at the end; what is in `buffer` grows by one byte at most, and only if the port is busy. -/
structure Moves (port : PortState) (added : List Byte) (s t : Itm) : Prop where
  exists_gone : ∃ gone, s.held ++ added = gone ++ t.held ∧
    t.sent = s.sent ++ if port = .disabled then [] else gone
  size_le_succ : t.size.toNat ≤ s.size.toNat + 1
  size_le : port ≠ .busy → t.size.toNat ≤ s.size.toNat

/-- **`update`.** The queue is empty afterwards, unless there were four bytes in `buffer`; these are
gone if the port is not busy. -/
theorem update_spec (s : Itm) (port : PortState) :
    Moves port [] s (s.update port) ∧
      ((s.update port).txBuffer.contents = [] ∨
        s.size.toNat = 4 ∧ (port ≠ .busy → (s.update port).size.toNat = 0)) := by
  obtain ⟨hheld, hsent, hlength, hend⟩ := collectAll_spec 4 s (Nat.le_add_left 4 _)
  obtain ⟨hqueue, ⟨gone, hbuffered, hgone⟩, hsize⟩ := (collectAll 4 s).handOver_spec port
  have hone := s.length_contents_le
  have hfirst : (collectAll 4 s).size.toNat ≤ s.size.toNat + 1 := by omega
  have hthree : (collectAll 4 s).size = 3 → (collectAll 4 s).size.toNat = 3 := fun h => by
    rw [h]
    rfl
  rw [← update] at hqueue hbuffered hgone hsize
  refine ⟨⟨⟨gone, ?_, ?_⟩, ?_, fun hbusy => ?_⟩, ?_⟩
  · rw [List.append_nil, ← hheld, held, held, hqueue, hbuffered, List.append_assoc]
  · rw [hgone, hsent]
  · rw [hsize]
    split_ifs with h h'
    · exact hfirst
    · exact Nat.le_add_left 1 _
    · exact Nat.zero_le _
  · rw [hsize, if_neg hbusy]
    split_ifs with h
    · have := hthree h
      omega
    · exact Nat.zero_le _
  · rcases hend with hnil | hfour
    · exact Or.inl (hqueue ▸ hnil)
    · by_cases hnil : (collectAll 4 s).txBuffer.contents = []
      · exact Or.inl (hqueue ▸ hnil)
      · have hpos := List.length_pos_iff.mpr hnil
        have hle := s.size_le
        refine Or.inr ⟨by omega, fun hbusy => ?_⟩
        rw [hsize, if_neg hbusy, if_neg]
        intro h
        have := hthree h
        omega

theorem write_of_pushed (s : Itm) {data : Byte} (port : PortState)
    (h : (s.txBuffer.push data).2 = true) :
    s.write data port = ({ s with txBuffer := (s.txBuffer.push data).1 }, true) :=
  if_pos h

theorem write_of_full (s : Itm) {data : Byte} (port : PortState)
    (h : (s.txBuffer.push data).2 = false) :
    s.write data port = ({ s.update port with
      txBuffer := ((s.update port).txBuffer.push data).1 },
      ((s.update port).txBuffer.push data).2) :=
  if_neg (by rw [h]; exact Bool.false_ne_true)

/-- **`write`.** It fails only if four bytes are in `buffer`, which it hands over unless the port is
busy. -/
theorem write_spec (s : Itm) (data : Byte) (port : PortState) :
    Moves port (if (s.write data port).2 then [data] else []) s (s.write data port).1 ∧
      ((s.write data port).2 = false →
        s.size.toNat = 4 ∧ (port ≠ .busy → (s.write data port).1.size.toNat = 0)) := by
  have hupdate := s.update_spec port
  obtain ⟨hpushed, hcontents⟩ := s.txBuffer.contents_push data
  have hcapacity : AtomicQueue.capacity 1 = 1 := rfl
  rw [hcapacity] at hpushed hcontents
  by_cases hempty : s.txBuffer.contents.length < 1
  · rw [decide_eq_true hempty] at hpushed
    rw [if_pos hempty] at hcontents
    rw [s.write_of_pushed port hpushed]
    refine ⟨⟨⟨[], ?_, by simp⟩, Nat.le_succ _, fun _ => Nat.le_refl _⟩, fun h => by cases h⟩
    change s.held ++ [data] = s.buffered ++ (s.txBuffer.push data).1.contents
    rw [hcontents, held, List.append_assoc]
  · rw [decide_eq_false hempty] at hpushed
    rw [s.write_of_full port hpushed]
    generalize s.update port = t at *
    obtain ⟨⟨⟨gone, hheld, hsent⟩, hsucc, hle⟩, hend⟩ := hupdate
    obtain ⟨hpushed', hcontents'⟩ := t.txBuffer.contents_push data
    rw [hcapacity] at hpushed' hcontents'
    rw [List.append_nil] at hheld
    by_cases hfree : t.txBuffer.contents.length < 1
    · rw [decide_eq_true hfree] at hpushed'
      rw [if_pos hfree] at hcontents'
      refine ⟨⟨⟨gone, ?_, hsent⟩, hsucc, hle⟩, fun h => by rw [hpushed'] at h; cases h⟩
      change s.held ++ (if (t.txBuffer.push data).2 = true then [data] else []) =
        gone ++ (t.buffered ++ (t.txBuffer.push data).1.contents)
      rw [hpushed', if_pos rfl, hcontents', hheld, held, List.append_assoc, List.append_assoc]
    · rw [decide_eq_false hfree] at hpushed'
      rw [if_neg hfree] at hcontents'
      refine ⟨⟨⟨gone, ?_, hsent⟩, hsucc, hle⟩, fun _ => ?_⟩
      · change s.held ++ (if (t.txBuffer.push data).2 = true then [data] else []) =
          gone ++ (t.buffered ++ (t.txBuffer.push data).1.contents)
        rw [hpushed', if_neg Bool.false_ne_true, hcontents', List.append_nil, hheld, held]
      · exact hend.resolve_left fun hnil => hfree (by simp [hnil])

end Itm

/-! ### The device of the log -/

/-- The device: the rest of the text that is to be written, and the bytes that were accepted. -/
structure LogDevice where
  itm : Itm
  pending : List Byte
  accepted : List Byte

/-- What happens at the device, with the state of the port where it is asked for. -/
inductive LogEvent
  /-- A text is to be written. -/
  | print (text : List Byte)
  /-- One pass of the loop of `IODeviceWrapper::write`. -/
  | attempt (port : PortState)
  /-- One pass of the loop of `Itm::flushWriteBuffer`. -/
  | flush (port : PortState)
  deriving DecidableEq, Repr

/-- The event is not the next one. -/
inductive LogFault
  | notReady
  deriving DecidableEq, Repr

namespace LogEvent

/-- The text. -/
def text : LogEvent → List Byte
  | .print text => text
  | _ => []

/-- The state of the port. -/
def port : LogEvent → Option PortState
  | .print _ => none
  | .attempt port => some port
  | .flush port => some port

/-- Whether `Itm::write` is called. -/
def isAttempt : LogEvent → Bool
  | .attempt _ => true
  | _ => false

end LogEvent

namespace LogDevice

def initial (memory : Vector Byte 2) : LogDevice where
  itm := .initial memory
  pending := []
  accepted := []

/-- One event. -/
def step (d : LogDevice) : LogEvent → Except LogFault LogDevice
  | .print text =>
    match d.pending with
    | [] => .ok { d with pending := text }
    | _ :: _ => .error .notReady
  | .attempt port =>
    match d.pending with
    | [] => .error .notReady
    | c :: rest =>
      let (itm, written) := d.itm.write c port
      if written then .ok { itm := itm, pending := rest, accepted := d.accepted ++ [c] }
      else .ok { d with itm := itm }
  | .flush port =>
    match d.pending with
    | [] =>
      if d.itm.txBuffer.isEmpty then .error .notReady
      else .ok { d with itm := d.itm.update port }
    | _ :: _ => .error .notReady

/-- The device after the events. -/
def run (d : LogDevice) (events : List LogEvent) : Except LogFault LogDevice :=
  Machine.run step d events

/-- The number of times that the port was busy. -/
def busyCount (es : List LogEvent) : ℕ := es.countP fun e => e.port = some .busy

/-- The number of calls of `Itm::write`. -/
def attempts (es : List LogEvent) : ℕ := es.countP LogEvent.isAttempt

/-- **The invariant**, after the events `es`. -/
structure Delivered (es : List LogEvent) (d : LogDevice) : Prop where
  text : es.flatMap LogEvent.text = d.accepted ++ d.pending
  sublist : (d.itm.sent ++ d.itm.held).Sublist d.accepted
  eq : (∀ e ∈ es, e.port ≠ some .disabled) → d.itm.sent ++ d.itm.held = d.accepted
  size_le : d.itm.size.toNat ≤ busyCount es
  attempts_le : attempts es + (d.itm.size.toNat - 1) ≤ d.accepted.length + busyCount es

/-- Nothing comes up that was not accepted. -/
theorem sublist_of_moves {port : PortState} {added accepted : List Byte} {s t : Itm}
    (h : Itm.Moves port added s t) (hsublist : (s.sent ++ s.held).Sublist accepted) :
    (t.sent ++ t.held).Sublist (accepted ++ added) := by
  obtain ⟨gone, hheld, hsent⟩ := h.exists_gone
  have hall : (s.sent ++ (gone ++ t.held)).Sublist (accepted ++ added) := by
    rw [← hheld, ← List.append_assoc]
    exact hsublist.append_right added
  refine List.Sublist.trans ?_ hall
  rw [hsent, List.append_assoc]
  refine List.Sublist.append_left (List.Sublist.append_right ?_ _) _
  split_ifs
  · exact List.nil_sublist _
  · exact List.Sublist.refl _

/-- Nothing is lost while the port is enabled. -/
theorem eq_of_moves {port : PortState} {added accepted : List Byte} {s t : Itm}
    (h : Itm.Moves port added s t) (hport : port ≠ .disabled) (heq : s.sent ++ s.held = accepted) :
    t.sent ++ t.held = accepted ++ added := by
  obtain ⟨gone, hheld, hsent⟩ := h.exists_gone
  rw [hsent, if_neg hport, List.append_assoc, ← hheld, ← List.append_assoc, heq]

namespace Delivered

variable {es : List LogEvent} {d d' : LogDevice} {e : LogEvent} {port : PortState}

theorem initial (memory : Vector Byte 2) : Delivered [] (LogDevice.initial memory) := by
  have hheld : (LogDevice.initial memory).itm.held = [] := by
    change (Itm.initial memory).buffered ++ (AtomicQueue.initial memory).contents = []
    rw [AtomicQueue.contents_initial, List.append_nil]
    exact List.length_eq_zero_iff.mp (Itm.length_buffered _)
  have hsent : (LogDevice.initial memory).itm.sent = [] := rfl
  refine ⟨rfl, ?_, fun _ => ?_, Nat.le_refl _, Nat.le_refl _⟩
  · rw [hheld, hsent]
    exact List.Sublist.refl _
  · rw [hheld, hsent]
    rfl

/-- Bytes move on in an event that asks for the port. -/
theorem of_moves (h : Delivered es d) {added : List Byte} (hport : e.port = some port)
    (htext : e.text = []) (hmoves : Itm.Moves port added d.itm d'.itm)
    (haccepted : d'.accepted = d.accepted ++ added) (hpending : d.pending = added ++ d'.pending)
    (hattempts : e.isAttempt = true → added = [] →
      d.itm.size.toNat = 4 ∧ (port ≠ .busy → d'.itm.size.toNat = 0)) (hadded : added.length ≤ 1) :
    Delivered (es ++ [e]) d' := by
  have hbusy : busyCount (es ++ [e]) = busyCount es + if port = .busy then 1 else 0 := by
    rw [busyCount, List.countP_append, List.countP_singleton, hport]
    simp [busyCount]
  have hcount : attempts (es ++ [e]) = attempts es + if e.isAttempt then 1 else 0 := by
    rw [attempts, List.countP_append, List.countP_singleton]
    rfl
  have hsucc := hmoves.size_le_succ
  have hsize := h.size_le
  have hle := h.attempts_le
  refine ⟨?_, ?_, fun hall => ?_, ?_, ?_⟩
  · rw [List.flatMap_append, h.text, List.flatMap_singleton, htext, haccepted, hpending,
      List.append_nil, List.append_assoc]
  · rw [haccepted]
    exact sublist_of_moves hmoves h.sublist
  · rw [haccepted]
    refine eq_of_moves hmoves (fun hdisabled => ?_)
      (h.eq fun e' he' => hall e' (List.mem_append_left _ he'))
    exact hall e (by simp) (by rw [hport, hdisabled])
  · rw [hbusy]
    split_ifs with hb
    · omega
    · exact Nat.le_trans (hmoves.size_le hb) hsize
  · rw [hbusy, hcount, haccepted, List.length_append]
    have hlast := hmoves.size_le
    by_cases hattempt : e.isAttempt = true
    · rw [if_pos hattempt]
      cases hlist : added with
      | nil =>
        obtain ⟨hfour, hzero⟩ := hattempts hattempt hlist
        by_cases hb : port = .busy
        · rw [if_pos hb, List.length_nil]
          have hmax := d'.itm.size_le
          omega
        · rw [if_neg hb, List.length_nil]
          have := hzero hb
          omega
      | cons c rest =>
        rw [List.length_cons]
        by_cases hb : port = .busy
        · rw [if_pos hb]
          omega
        · rw [if_neg hb]
          have := hlast hb
          omega
    · rw [if_neg hattempt]
      by_cases hb : port = .busy
      · rw [if_pos hb]
        omega
      · rw [if_neg hb]
        have := hlast hb
        omega

theorem step (h : Delivered es d) (hstep : d.step e = .ok d') : Delivered (es ++ [e]) d' := by
  cases e with
  | print text =>
    rw [LogDevice.step] at hstep
    split at hstep
    · next hpending =>
      cases hstep
      have hbusy : busyCount (es ++ [.print text]) = busyCount es := by
        simp [busyCount, List.countP_append, LogEvent.port]
      have hcount : attempts (es ++ [.print text]) = attempts es := by
        simp [attempts, List.countP_append, LogEvent.isAttempt]
      refine ⟨?_, h.sublist, fun hall => ?_, by rw [hbusy]; exact h.size_le, ?_⟩
      · rw [List.flatMap_append, h.text, hpending, List.append_nil, List.flatMap_singleton]
        rfl
      · exact h.eq fun e he => hall e (List.mem_append_left _ he)
      · rw [hbusy, hcount]
        exact h.attempts_le
    · cases hstep
  | attempt port =>
    rw [LogDevice.step] at hstep
    split at hstep
    · cases hstep
    · next c rest hpending =>
      obtain ⟨hmoves, hfail⟩ := d.itm.write_spec c port
      cases hwritten : (d.itm.write c port).2 with
      | true =>
        rw [hwritten] at hmoves
        simp only [hwritten, if_true] at hstep
        cases hstep
        exact h.of_moves rfl rfl hmoves rfl hpending (fun _ hnil => by cases hnil) (Nat.le_refl 1)
      | false =>
        rw [hwritten] at hmoves
        simp only [hwritten] at hstep
        cases hstep
        exact h.of_moves rfl rfl hmoves (List.append_nil _).symm rfl
          (fun _ _ => hfail hwritten) (Nat.zero_le 1)
  | flush port =>
    rw [LogDevice.step] at hstep
    split at hstep
    · split_ifs at hstep
      cases hstep
      exact h.of_moves rfl rfl (d.itm.update_spec port).1 (List.append_nil _).symm rfl
        (fun hattempt => by cases hattempt) (Nat.zero_le 1)
    · cases hstep

end Delivered

end LogDevice

/-- **The log arrives.** Whatever texts are written and whenever the port is busy: what the port was
given is made of accepted bytes in their order, and unless the unit is disabled at some time, it is
all of the log so far but the last bytes; at most five of these were accepted, and only one if the
port was never busy. The log waits for nothing but the port: there are no more calls of `Itm::write`
than bytes that were accepted and times that the port was busy. -/
theorem log_delivered (memory : Vector Byte 2) (es : List LogEvent) (d : LogDevice)
    (hrun : (LogDevice.initial memory).run es = .ok d) :
    (d.itm.sent ++ d.itm.held).Sublist d.accepted ∧
      d.accepted ++ d.pending = es.flatMap LogEvent.text ∧
      ((∀ e ∈ es, e.port ≠ some .disabled) →
        d.itm.sent ++ d.itm.held ++ d.pending = es.flatMap LogEvent.text) ∧
      d.itm.held.length ≤ 1 + min 4 (LogDevice.busyCount es) ∧
      LogDevice.attempts es ≤ d.accepted.length + LogDevice.busyCount es := by
  have h : LogDevice.Delivered es d := Machine.run_history
    (fun hs hstep => LogDevice.Delivered.step hs hstep) (LogDevice.Delivered.initial memory) hrun
  have hle := h.attempts_le
  have hsize := h.size_le
  have hmax := d.itm.size_le
  have hone := d.itm.length_contents_le
  have hbuffered := d.itm.length_buffered
  refine ⟨h.sublist, h.text.symm, fun hall => ?_, ?_, by omega⟩
  · rw [h.eq hall, h.text]
  · rw [Itm.held, List.length_append]
    omega

/-- Three bytes, with the port busy once. -/
theorem log_delivered_three :
    ∃ d, (LogDevice.initial #v[0, 0]).run
        [.print [67, 117, 114], .attempt .ready, .attempt .busy, .attempt .ready] = .ok d ∧
      d.itm.sent = [67, 117] ∧ d.itm.sent ++ d.itm.held ++ d.pending = [67, 117, 114] := by
  refine ⟨_, rfl, rfl, ?_⟩
  exact (log_delivered #v[0, 0] [.print [67, 117, 114], .attempt .ready, .attempt .busy,
    .attempt .ready] _ rfl).2.2.1 (by decide)

end Modellbahn
