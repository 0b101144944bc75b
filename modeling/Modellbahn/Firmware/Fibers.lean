import Modellbahn.Clock.SysTick
import Modellbahn.Fibers.Interleaving
import Modellbahn.Fibers.Scheduler

/-!
# The fibers on the scheduler

The four fibers of `src/main.cpp`, `src/simulation.cpp` and `expansion/controller.hpp` on the
scheduler, with the timer counting and the DMA of `spi_master_3_dma_impl.hpp` at work between any
two steps of the running fiber. A step of a fiber leads from one place of its program to the next
one; it ends the turn of the fiber where the fiber yields. `sleep_for` and `transfer` are the loops
of the source, which yield until the time has come or the interrupts have come.

A call of `now` is one step here, and returns the reading of that instant. The handler of a DMA
channel runs at any time after the channel has finished, but before the next transfer starts. The
members `frame`, `sent` and `readings` record what goes over the wire and the values of the button;
no fiber reads them.

## Main definitions

* `Modellbahn.Firmware`, `Modellbahn.Firmware.step`: the state and one event.
* `Modellbahn.Firmware.resume`: one step of a fiber.
* `Modellbahn.Firmware.boot`: the state after the fibers are started and the scheduler is run.
* `Modellbahn.Firmware.Resumes`: what a step of a fiber does.

## Main results

* `Modellbahn.Firmware.resumes_of_resume`, `Modellbahn.Firmware.cpu_cases`: inversion of the steps.
* `Modellbahn.Firmware.exists_boot`: the firmware boots.
* `Modellbahn.Firmware.Resumes.turns`: all fibers stay on the scheduler.
-/

namespace Modellbahn

/-- The fibers of the firmware. -/
inductive FiberId
  | simulation
  | expandControl
  | measurement
  | driverFiber
  deriving DecidableEq, Repr

/-- The place of `simulation`. -/
inductive SimulationPc
  /-- At the head of the loop. -/
  | pass
  /-- In the output loop, before the calls of `set_buffer`. -/
  | output (calls : List (IoPosition × Bool))
  /-- In `sleep_for(100ms)`, with its variable `start`. -/
  | sleep (start : BitVec 32)
  | returned
  deriving DecidableEq, Repr

/-- The place of `controller::update`. -/
inductive ControlPc
  /-- At `CS::reset()` and the start of the transfer. -/
  | reset
  /-- In the loop of `transfer`. -/
  | poll
  /-- At `CS::set()`. -/
  | set
  /-- In `sleep_for(2ms)`. -/
  | sleep (start : BitVec 32)
  deriving DecidableEq, Repr

/-- The place of `measurement`. -/
inductive MeasurementPc
  /-- At `startReadout()`. -/
  | start
  /-- In `poll(isReadoutFinished)`. -/
  | poll
  /-- In `sleep_for(100ms)`. -/
  | sleep (start : BitVec 32)
  deriving DecidableEq, Repr

/-- The place of `driver_fiber`. -/
inductive DriverPc
  /-- Before the loop. -/
  | init
  /-- At the first call of `configureOutputChannel` in the loop. -/
  | first
  /-- At the second one. -/
  | second
  /-- In `sleep_for(500us)`. -/
  | sleep (start : BitVec 32)
  deriving DecidableEq, Repr

/-- The flags of `SpiMaster3_Dma`, whether its channels are started, and the numbers of bytes that
the DMA has read for the transfer and that have been shifted out. -/
structure SpiDma where
  read : ℕ
  shifted : ℕ
  txRunning : Bool
  rxRunning : Bool
  dmaError : Bool
  dmaTransmitComplete : Bool
  dmaReceiveComplete : Bool
  deriving DecidableEq, Repr

/-- The variable `steper` of `driver_fiber`, the compare values of the two inputs of the bridge and
its enable input. -/
structure Bridge where
  steper : ℤ
  in1 : ℕ
  in2 : ℕ
  enabled : Bool
  deriving DecidableEq, Repr

/-- The frequency of the core, and `Timer::getOverflow()`. -/
structure Config where
  frequency : ℕ
  maxvalue : ℕ
  deriving DecidableEq, Repr

/-- The board, with the overflow of the timer for a period of 80 µs. -/
def boardConfig : Config := { frequency := systemClockFrequency, maxvalue := 7199 }

/-- The state of the firmware. -/
structure Firmware (bs : BoardTable) (n : ℕ) where
  scheduler : Scheduler FiberId
  /-- The counts of the timer. -/
  time : ℕ
  sim : Sim bs n
  simulation : SimulationPc
  control : ControlPc
  measurement : MeasurementPc
  driver : DriverPc
  spi : SpiDma
  bridge : Bridge
  /-- The bytes read since CS went low, or `none` while CS is high. -/
  frame : Option (List Byte)
  /-- The last complete frame. -/
  sent : Option (List Byte)
  /-- The values of the button in the passes so far. -/
  readings : List Bool

/-- What happens. -/
inductive FirmwareEvent
  /-- The timer counts. -/
  | count
  /-- The DMA reads the next byte of `out_buffer`. -/
  | read
  /-- The next byte has been shifted out. -/
  | shift
  /-- `handleDmaTransmitComplete` -/
  | transmitComplete
  /-- `handleDmaReceiveComplete` -/
  | receiveComplete
  /-- `handleDmaTransferError` -/
  | transferError
  /-- The running fiber makes its next step; `input` is the value of the button or of
  `isReadoutFinished()` where it asks for one. -/
  | cpu (input : Bool)
  deriving DecidableEq, Repr

/-- Why an event does not take place. -/
inductive FirmwareFault
  /-- It is not the turn of this event. -/
  | notReady
  /-- The computation has no result. -/
  | stopped (e : Stop)
  | scheduler (e : SchedulerFault)
  deriving DecidableEq, Repr

/-- How a step of a fiber ends. -/
inductive Turn
  | goesOn
  | yields
  | returns
  deriving DecidableEq, Repr

/-- The condition of the loop of `sleep_for`. -/
def asleep (now start duration : BitVec 32) : Bool := now - start < duration

namespace Firmware

variable {bs : BoardTable} {n : ℕ}

/-- `now` of a clock. -/
def now (cfg : Config) (c : ChronoClock) (s : Firmware bs n) : BitVec 32 :=
  BitVec.ofNat 32 (ticks c cfg.frequency s.time)

/-! ### The fibers -/

/-- One step of `simulation`. -/
def resumeSimulation (cfg : Config) (s : Firmware bs n) (button : Bool) :
    Except FirmwareFault (Firmware bs n × Turn) :=
  match s.simulation with
  | .pass =>
    match advance s.sim button with
    | .ok sim =>
      .ok ({ s with
        sim := sim
        simulation := .output (outputCalls sim.tracks)
        readings := s.readings ++ [button] }, .goesOn)
    | .error (.nextTrackNotFound line) =>
      let out := { s.sim.out with log := s.sim.out.log ++ [line] }
      .ok ({ s with sim := { s.sim with out := out }, simulation := .returned }, .returns)
    | .error e => .error (.stopped e)
  | .output (call :: calls) =>
    match setBuffer s.sim.out call.1 call.2 with
    | .ok out => .ok ({ s with sim := { s.sim with out := out }, simulation := .output calls },
        .goesOn)
    | .error e => .error (.stopped e)
  | .output [] => .ok ({ s with simulation := .sleep (s.now cfg .milli) }, .yields)
  | .sleep start =>
    if asleep (s.now cfg .milli) start 100 then .ok (s, .yields)
    else .ok ({ s with simulation := .pass }, .goesOn)
  | .returned => .error .notReady

/-- The flags at the start of a transfer. -/
def startedTransfer : SpiDma where
  read := 0
  shifted := 0
  txRunning := true
  rxRunning := true
  dmaError := false
  dmaTransmitComplete := false
  dmaReceiveComplete := false

/-- `SpiHal3::getInterruptFlags() & Busy` -/
def busy (s : Firmware bs n) : Bool := s.spi.shifted < s.spi.read

/-- One step of `controller::update`. A transfer starts when both channels have been stopped by
their handlers; that these have run by then is an assumption on the hardware. -/
def resumeControl (cfg : Config) (s : Firmware bs n) :
    Except FirmwareFault (Firmware bs n × Turn) :=
  match s.control with
  | .reset =>
    if s.spi.txRunning ∨ s.spi.rxRunning then .error .notReady
    else .ok ({ s with control := .poll, spi := startedTransfer, frame := some [] }, .goesOn)
  | .poll =>
    if s.spi.dmaError then .ok ({ s with control := .set }, .goesOn)
    else if !s.spi.dmaTransmitComplete && !s.spi.dmaReceiveComplete then .ok (s, .yields)
    else if s.busy then .ok (s, .yields)
    else .ok ({ s with control := .set }, .goesOn)
  | .set =>
    let complete := s.frame.filter fun bytes => bytes.length = (calculateBufferSize bs).toNat
    .ok ({ s with
      control := .sleep (s.now cfg .milli)
      frame := none
      sent := complete.or s.sent }, .yields)
  | .sleep start =>
    if asleep (s.now cfg .milli) start 2 then .ok (s, .yields)
    else .ok ({ s with control := .reset }, .goesOn)

/-- One step of `measurement`. -/
def resumeMeasurement (cfg : Config) (s : Firmware bs n) (isReadoutFinished : Bool) :
    Firmware bs n × Turn :=
  match s.measurement with
  | .start => ({ s with measurement := .poll }, .goesOn)
  | .poll =>
    if isReadoutFinished then ({ s with measurement := .sleep (s.now cfg .milli) }, .yields)
    else (s, .yields)
  | .sleep start =>
    if asleep (s.now cfg .milli) start 100 then (s, .yields)
    else ({ s with measurement := .start }, .goesOn)

/-- One step of `driver_fiber`. -/
def resumeDriver (cfg : Config) (s : Firmware bs n) : Firmware bs n × Turn :=
  let half := cfg.maxvalue / 2
  match s.driver with
  | .init =>
    ({ s with driver := .first, bridge := { steper := 0, in1 := 0, in2 := 0, enabled := true } },
      .goesOn)
  | .first =>
    ({ s with
      driver := .second
      bridge := { s.bridge with in1 := if s.bridge.steper > 0 then half else 0 } }, .goesOn)
  | .second =>
    ({ s with
      driver := .sleep (s.now cfg .micro)
      bridge := { s.bridge with
        in2 := if s.bridge.steper > 0 then 0 else half
        steper := if s.bridge.steper = 1 then -1 else 1 } }, .yields)
  | .sleep start =>
    if asleep (s.now cfg .micro) start 500 then (s, .yields)
    else ({ s with driver := .first }, .goesOn)

/-- One step of a fiber. -/
def resume (cfg : Config) (s : Firmware bs n) (f : FiberId) (input : Bool) :
    Except FirmwareFault (Firmware bs n × Turn) :=
  match f with
  | .simulation => s.resumeSimulation cfg input
  | .expandControl => s.resumeControl cfg
  | .measurement => .ok (s.resumeMeasurement cfg input)
  | .driverFiber => .ok (s.resumeDriver cfg)

/-- The scheduler takes an operation. -/
def schedule (s : Firmware bs n) (op : SchedulerOp FiberId) :
    Except FirmwareFault (Firmware bs n) :=
  match s.scheduler.step op with
  | .ok scheduler => .ok { s with scheduler := scheduler }
  | .error e => .error (.scheduler e)

/-- One step of the running fiber. -/
def cpu (cfg : Config) (s : Firmware bs n) (input : Bool) : Except FirmwareFault (Firmware bs n) :=
  match s.scheduler.current with
  | none => .error .notReady
  | some f =>
    match s.resume cfg f input with
    | .error e => .error e
    | .ok (t, .goesOn) => .ok t
    | .ok (t, .yields) => t.schedule .yield
    | .ok (t, .returns) => t.schedule .finish

/-! ### The hardware -/

/-- The DMA reads the next byte of `out_buffer`. -/
def readByte (s : Firmware bs n) : Except FirmwareFault (Firmware bs n) :=
  if h : s.spi.txRunning ∧ s.spi.read < (calculateBufferSize bs).toNat then
    .ok { s with
      spi := { s.spi with read := s.spi.read + 1 }
      frame := s.frame.map (· ++ [s.sim.out.outBuffer[s.spi.read]]) }
  else .error .notReady

/-- One event. -/
def step (cfg : Config) (s : Firmware bs n) : FirmwareEvent → Except FirmwareFault (Firmware bs n)
  | .count => .ok { s with time := s.time + 1 }
  | .read => s.readByte
  | .shift =>
    if s.spi.shifted < s.spi.read then
      .ok { s with spi := { s.spi with shifted := s.spi.shifted + 1 } }
    else .error .notReady
  | .transmitComplete =>
    if s.spi.txRunning ∧ s.spi.read = (calculateBufferSize bs).toNat then
      .ok { s with spi := { s.spi with txRunning := false, dmaTransmitComplete := true } }
    else .error .notReady
  | .receiveComplete =>
    if s.spi.rxRunning ∧ s.spi.shifted = (calculateBufferSize bs).toNat then
      .ok { s with spi := { s.spi with rxRunning := false, dmaReceiveComplete := true } }
    else .error .notReady
  | .transferError =>
    if s.spi.txRunning ∨ s.spi.rxRunning then
      .ok { s with
        spi := { s.spi with txRunning := false, rxRunning := false, dmaError := true } }
    else .error .notReady
  | .cpu input => s.cpu cfg input

/-- The state after a list of events. -/
def run (cfg : Config) (s : Firmware bs n) (events : List FirmwareEvent) :
    Except FirmwareFault (Firmware bs n) :=
  Machine.run (step cfg) s events

/-- The constructors of the fibers start them in some order, and `main` runs the scheduler. -/
def boot (sim : Sim bs n) (order : List FiberId) : Except FirmwareFault (Firmware bs n) :=
  match Machine.run Scheduler.step Scheduler.initial (order.map .start ++ [.run]) with
  | .error e => .error (.scheduler e)
  | .ok scheduler =>
    .ok {
      scheduler := scheduler
      time := 0
      sim := sim
      simulation := .pass
      control := .reset
      measurement := .start
      driver := .init
      spi := { startedTransfer with txRunning := false, rxRunning := false }
      bridge := { steper := 0, in1 := 0, in2 := 0, enabled := false }
      frame := none
      sent := none
      readings := [] }

/-! ### Inversion -/

/-- What a step of a fiber does. -/
inductive Resumes (cfg : Config) (s : Firmware bs n) :
    FiberId → Bool → Firmware bs n → Turn → Prop
  | pass {button : Bool} {sim : Sim bs n} (hpc : s.simulation = .pass)
    (hadvance : advance s.sim button = .ok sim) :
    Resumes cfg s .simulation button { s with
      sim := sim
      simulation := .output (outputCalls sim.tracks)
      readings := s.readings ++ [button] } .goesOn
  | notFound {button : Bool} {line : LogLine} (hpc : s.simulation = .pass)
    (hadvance : advance s.sim button = .error (.nextTrackNotFound line)) :
    Resumes cfg s .simulation button { s with
      sim := { s.sim with out := { s.sim.out with log := s.sim.out.log ++ [line] } }
      simulation := .returned } .returns
  | write {button : Bool} {call : IoPosition × Bool} {calls : List (IoPosition × Bool)}
    {out : Output bs} (hpc : s.simulation = .output (call :: calls))
    (hset : setBuffer s.sim.out call.1 call.2 = .ok out) :
    Resumes cfg s .simulation button { s with
      sim := { s.sim with out := out }
      simulation := .output calls } .goesOn
  | fallAsleep {button : Bool} (hpc : s.simulation = .output []) :
    Resumes cfg s .simulation button { s with simulation := .sleep (s.now cfg .milli) } .yields
  | asleep {button : Bool} {start : BitVec 32} (hpc : s.simulation = .sleep start)
    (hsleep : Modellbahn.asleep (s.now cfg .milli) start 100 = true) :
    Resumes cfg s .simulation button s .yields
  | wake {button : Bool} {start : BitVec 32} (hpc : s.simulation = .sleep start)
    (hsleep : Modellbahn.asleep (s.now cfg .milli) start 100 = false) :
    Resumes cfg s .simulation button { s with simulation := .pass } .goesOn
  | reset {input : Bool} (hpc : s.control = .reset) (htx : s.spi.txRunning = false)
    (hrx : s.spi.rxRunning = false) :
    Resumes cfg s .expandControl input { s with
      control := .poll
      spi := startedTransfer
      frame := some [] } .goesOn
  | pollAgain {input : Bool} (hpc : s.control = .poll) :
    Resumes cfg s .expandControl input s .yields
  | transferEnd {input : Bool} (hpc : s.control = .poll)
    (hend : s.spi.dmaError = true ∨
      (s.spi.dmaTransmitComplete = true ∨ s.spi.dmaReceiveComplete = true) ∧ s.busy = false) :
    Resumes cfg s .expandControl input { s with control := .set } .goesOn
  | set {input : Bool} (hpc : s.control = .set) :
    Resumes cfg s .expandControl input { s with
      control := .sleep (s.now cfg .milli)
      frame := none
      sent := (s.frame.filter fun bytes =>
        bytes.length = (calculateBufferSize bs).toNat).or s.sent } .yields
  | controlAsleep {input : Bool} {start : BitVec 32} (hpc : s.control = .sleep start)
    (hsleep : Modellbahn.asleep (s.now cfg .milli) start 2 = true) :
    Resumes cfg s .expandControl input s .yields
  | controlWake {input : Bool} {start : BitVec 32} (hpc : s.control = .sleep start)
    (hsleep : Modellbahn.asleep (s.now cfg .milli) start 2 = false) :
    Resumes cfg s .expandControl input { s with control := .reset } .goesOn
  | measurement {input : Bool} {pc : MeasurementPc} {turn : Turn} (hturn : turn ≠ .returns)
    (hresume : s.resumeMeasurement cfg input = ({ s with measurement := pc }, turn)) :
    Resumes cfg s .measurement input { s with measurement := pc } turn
  | driver {input : Bool} {pc : DriverPc} {bridge : Bridge} {turn : Turn} (hturn : turn ≠ .returns)
    (hresume : s.resumeDriver cfg = ({ s with driver := pc, bridge := bridge }, turn)) :
    Resumes cfg s .driverFiber input { s with driver := pc, bridge := bridge } turn

variable {cfg : Config} {s t u : Firmware bs n} {f : FiberId} {input : Bool} {turn : Turn}

theorem resumes_simulation (h : s.resumeSimulation cfg input = .ok (t, turn)) :
    Resumes cfg s .simulation input t turn := by
  rw [resumeSimulation] at h
  cases hpc : s.simulation with
  | pass =>
    rw [hpc] at h
    cases hadvance : advance s.sim input with
    | ok sim =>
      simp only [hadvance] at h
      cases h
      exact .pass hpc hadvance
    | error e =>
      cases e with
      | nextTrackNotFound line =>
        simp only [hadvance] at h
        cases h
        exact .notFound hpc hadvance
      | outOfRange => simp [hadvance] at h
      | outOfFuel => simp [hadvance] at h
  | output calls =>
    rw [hpc] at h
    cases calls with
    | nil =>
      cases h
      exact .fallAsleep hpc
    | cons call calls =>
      cases hset : setBuffer s.sim.out call.1 call.2 with
      | ok out =>
        simp only [hset] at h
        cases h
        exact .write hpc hset
      | error e => simp [hset] at h
  | sleep start =>
    simp only [hpc] at h
    cases hsleep : Modellbahn.asleep (s.now cfg .milli) start 100 with
    | true =>
      rw [hsleep] at h
      cases h
      exact .asleep hpc hsleep
    | false =>
      rw [hsleep] at h
      cases h
      exact .wake hpc hsleep
  | returned => simp [hpc] at h

theorem resumes_control (h : s.resumeControl cfg = .ok (t, turn)) :
    Resumes cfg s .expandControl input t turn := by
  rw [resumeControl] at h
  cases hpc : s.control with
  | reset =>
    simp only [hpc] at h
    split_ifs at h with hrunning
    rw [not_or, Bool.not_eq_true, Bool.not_eq_true] at hrunning
    cases h
    exact .reset hpc hrunning.1 hrunning.2
  | poll =>
    simp only [hpc] at h
    split_ifs at h with herror hpending hbusy
    · cases h
      exact .transferEnd hpc (Or.inl herror)
    · cases h
      exact .pollAgain hpc
    · cases h
      exact .pollAgain hpc
    · cases h
      refine .transferEnd hpc (Or.inr ⟨?_, by simpa using hbusy⟩)
      by_contra hnone
      rw [not_or, Bool.not_eq_true, Bool.not_eq_true] at hnone
      simp [hnone.1, hnone.2] at hpending
  | set =>
    simp only [hpc] at h
    cases h
    exact .set hpc
  | sleep start =>
    simp only [hpc] at h
    split_ifs at h with hsleep
    · cases h
      exact .controlAsleep hpc hsleep
    · cases h
      exact .controlWake hpc (by simpa using hsleep)

theorem resumes_measurement :
    Resumes cfg s .measurement input (s.resumeMeasurement cfg input).1
      (s.resumeMeasurement cfg input).2 := by
  have hresume : ∃ pc turn, turn ≠ .returns ∧
      s.resumeMeasurement cfg input = ({ s with measurement := pc }, turn) := by
    rw [resumeMeasurement]
    cases hpc : s.measurement with
    | start => exact ⟨.poll, .goesOn, by simp, rfl⟩
    | poll =>
      cases input with
      | true => exact ⟨_, .yields, by simp, rfl⟩
      | false => exact ⟨s.measurement, .yields, by simp, rfl⟩
    | sleep start =>
      dsimp only
      split_ifs
      · exact ⟨s.measurement, .yields, by simp, rfl⟩
      · exact ⟨.start, .goesOn, by simp, rfl⟩
  obtain ⟨pc, turn, hturn, h⟩ := hresume
  rw [h]
  exact .measurement hturn h

theorem resumes_driver :
    Resumes cfg s .driverFiber input (s.resumeDriver cfg).1 (s.resumeDriver cfg).2 := by
  have hresume : ∃ pc bridge turn, turn ≠ .returns ∧
      s.resumeDriver cfg = ({ s with driver := pc, bridge := bridge }, turn) := by
    rw [resumeDriver]
    cases hpc : s.driver with
    | init => exact ⟨.first, _, .goesOn, by simp, rfl⟩
    | first => exact ⟨.second, _, .goesOn, by simp, rfl⟩
    | second => exact ⟨_, _, .yields, by simp, rfl⟩
    | sleep start =>
      dsimp only
      split_ifs
      · exact ⟨s.driver, s.bridge, .yields, by simp, rfl⟩
      · exact ⟨.first, s.bridge, .goesOn, by simp, rfl⟩
  obtain ⟨pc, bridge, turn, hturn, h⟩ := hresume
  rw [h]
  exact .driver hturn h

theorem resumes_of_resume (h : s.resume cfg f input = .ok (t, turn)) :
    Resumes cfg s f input t turn := by
  cases f with
  | simulation => exact resumes_simulation h
  | expandControl => exact resumes_control h
  | measurement =>
    obtain rfl : (s.resumeMeasurement cfg input).1 = t := congrArg Prod.fst (Except.ok.inj h)
    obtain rfl : (s.resumeMeasurement cfg input).2 = turn := congrArg Prod.snd (Except.ok.inj h)
    exact resumes_measurement
  | driverFiber =>
    obtain rfl : (s.resumeDriver cfg).1 = t := congrArg Prod.fst (Except.ok.inj h)
    obtain rfl : (s.resumeDriver cfg).2 = turn := congrArg Prod.snd (Except.ok.inj h)
    exact resumes_driver

theorem cpu_cases (h : s.cpu cfg input = .ok t) :
    ∃ f u turn, s.scheduler.current = some f ∧ Resumes cfg s f input u turn ∧
      (turn = .goesOn ∧ t = u ∨ turn = .yields ∧ u.schedule .yield = .ok t ∨
        turn = .returns ∧ u.schedule .finish = .ok t) := by
  rw [cpu] at h
  cases hcurrent : s.scheduler.current with
  | none => simp [hcurrent] at h
  | some f =>
    simp only [hcurrent] at h
    cases hresume : s.resume cfg f input with
    | error e => simp [hresume] at h
    | ok result =>
      obtain ⟨u, turn⟩ := result
      refine ⟨f, u, turn, rfl, resumes_of_resume hresume, ?_⟩
      rw [hresume] at h
      cases turn with
      | goesOn =>
        cases h
        exact Or.inl ⟨rfl, rfl⟩
      | yields => exact Or.inr (Or.inl ⟨rfl, h⟩)
      | returns => exact Or.inr (Or.inr ⟨rfl, h⟩)

/-! ### All fibers stay on the scheduler -/

/-- Fibers run, the running one is `f`, and with the others in the order `rest` these are all. -/
structure Turns (scheduler : Scheduler FiberId) (f : FiberId) (rest : List FiberId) : Prop where
  represents : scheduler.Represents ⟨f :: rest, true⟩
  mem : ∀ g, g ∈ f :: rest

namespace Turns

variable {scheduler : Scheduler FiberId} {rest : List FiberId}

theorem current (h : Turns scheduler f rest) : scheduler.current = some f := h.represents.current

theorem nodup (h : Turns scheduler f rest) : (f :: rest).Nodup := h.represents.nodup

theorem exists_cons (h : Turns scheduler f rest) : ∃ g rest', rest = g :: rest' := by
  cases hrest : rest with
  | cons g rest' => exact ⟨g, rest', rfl⟩
  | nil =>
    have h₁ := h.mem .simulation
    have h₂ := h.mem .measurement
    rw [hrest, List.mem_singleton] at h₁ h₂
    rw [← h₂] at h₁
    cases h₁

theorem yield {g : FiberId} (h : Turns scheduler f (g :: rest)) :
    ∃ next, scheduler.step .yield = .ok next ∧ Turns next g (rest ++ [f]) := by
  obtain ⟨next, q, hnext, hq, hrepresents⟩ := h.represents.yield
  obtain rfl : ⟨g :: (rest ++ [f]), true⟩ = q := by
    simpa [ReadyQueue.step] using hq
  refine ⟨next, hnext, hrepresents, fun k => ?_⟩
  have hk := h.mem k
  simp only [List.mem_cons, List.mem_append, List.not_mem_nil, or_false] at hk ⊢
  tauto

end Turns

/-- The starts of the fibers, in any order and with repetitions. -/
theorem run_starts {q : ReadyQueue FiberId} (hq : q.running = false) (order : List FiberId) :
    ∃ r, Machine.run ReadyQueue.step q (order.map .start) = .ok r ∧ r.running = false ∧
      (∀ f ∈ q.ready, f ∈ r.ready) ∧ ∀ f ∈ order, f ∈ r.ready := by
  induction order generalizing q with
  | nil => exact ⟨q, rfl, hq, fun f hf => hf, by simp⟩
  | cons f order ih =>
    obtain ⟨p, hp, hpq, hkept, hf⟩ : ∃ p, q.step (.start f) = .ok p ∧ p.running = false ∧
        (∀ g ∈ q.ready, g ∈ p.ready) ∧ f ∈ p.ready := by
      rw [ReadyQueue.step]
      split_ifs with hmem
      · exact ⟨q, rfl, hq, fun g hg => hg, hmem⟩
      · exact ⟨_, rfl, hq, fun g hg => List.mem_append_left _ hg, by simp⟩
    obtain ⟨r, hr, hrr, hkept', horder⟩ := ih hpq
    refine ⟨r, ?_, hrr, fun g hg => hkept' g (hkept g hg), fun g hg => ?_⟩
    · rw [List.map_cons]
      exact (Machine.run_cons_of_ok hp _).trans hr
    · rcases List.mem_cons.mp hg with rfl | hg
      · exact hkept' g hf
      · exact horder g hg

/-- **The boot succeeds** whatever the order in which the fibers are started. -/
theorem exists_boot (sim : Sim bs n) {order : List FiberId} (horder : ∀ f, f ∈ order) :
    ∃ s : Firmware bs n, boot sim order = .ok s ∧ ∃ f rest, Turns s.scheduler f rest := by
  obtain ⟨r, hr, hrunning, -, hmem⟩ := run_starts (q := ReadyQueue.initial) rfl order
  have hready : r.ready ≠ [] := List.ne_nil_of_mem (hmem .simulation (horder _))
  have hrun : Machine.run ReadyQueue.step ReadyQueue.initial (order.map .start ++ [.run]) =
      .ok ⟨r.ready, true⟩ := by
    refine Machine.run_concat_eq_ok.mpr ⟨r, hr, ?_⟩
    simp [ReadyQueue.step, hrunning, hready]
  rcases Scheduler.represents_initial.run_ops (order.map .start ++ [.run]) with
    ⟨scheduler, q, hs, hq, h⟩ | ⟨e, -, -, hq⟩
  · obtain rfl : ⟨r.ready, true⟩ = q := Except.ok.inj (hrun.symm.trans hq)
    obtain ⟨f, rest, hrest⟩ := List.exists_cons_of_ne_nil hready
    refine ⟨_, by rw [boot, hs], f, rest, ?_, fun g => ?_⟩
    · rwa [hrest] at h
    · rw [← hrest]
      exact hmem g (horder g)
  · rw [hrun] at hq
    cases hq

/-- The fibers of `main.cpp` before those of `simulation.cpp`. -/
def startOrder : List FiberId := [.measurement, .driverFiber, .expandControl, .simulation]

theorem mem_startOrder (f : FiberId) : f ∈ startOrder := by
  cases f <;> decide

theorem Resumes.scheduler_eq (h : Resumes cfg s f input u turn) (hturn : turn ≠ .returns) :
    u.scheduler = s.scheduler := by
  cases h with
  | notFound => exact absurd rfl hturn
  | _ => rfl

/-- **The turns.** A step of the running fiber keeps the turns, or ends its turn. -/
theorem Resumes.turns {rest : List FiberId} (h : Resumes cfg s f input u turn)
    (hturn : turn ≠ .returns) (hs : Turns s.scheduler f rest)
    (ht : turn = .goesOn ∧ t = u ∨ turn = .yields ∧ u.schedule .yield = .ok t ∨
      turn = .returns ∧ u.schedule .finish = .ok t) :
    turn = .goesOn ∧ t = u ∧ Turns t.scheduler f rest ∨
      turn = .yields ∧ ∃ g rest' next, rest = g :: rest' ∧ t = { u with scheduler := next } ∧
        Turns next g (rest' ++ [f]) := by
  have hscheduler := h.scheduler_eq hturn
  rcases ht with ⟨hgoes, rfl⟩ | ⟨hyields, ht⟩ | ⟨hreturns, -⟩
  · exact Or.inl ⟨hgoes, rfl, hscheduler ▸ hs⟩
  · obtain ⟨g, rest', rfl⟩ := hs.exists_cons
    obtain ⟨next, hnext, hturns⟩ := hs.yield
    rw [schedule, hscheduler, hnext] at ht
    cases ht
    exact Or.inr ⟨hyields, g, rest', next, rfl, rfl, hturns⟩
  · exact absurd hreturns hturn

end Firmware

end Modellbahn
