import Modellbahn.Clock.SysTick
import Modellbahn.Foundation.Machine

/-!
# Reading the clock while it runs

The model of `SysTick_Handler`, `milli_clock::now` and `micro_clock::now` in `systick_timer.cpp`,
with the timer counting and its handler running between any two accesses of `now`.

The reload of the counter makes the exception pending, and it is the handler that adds a quarter of
a second to the time: in between, the register `VAL` and the variable do not belong together. The
loop of `now` reads both again if the handler has run since it cleared `interrupt`. A handler that
is still due when `now` checks the flag goes unnoticed, and a second reload before it runs is lost;
what rests on its being in time assumes `HandlerInTime` along the run.

The counts start at the first reload after `enable`.

## Main definitions

* `Modellbahn.Clock`, `Modellbahn.Clock.step`: the timer, its variables and a call of `now`.
* `Modellbahn.HandlerInTime`: a pending exception is taken before the check of the flag and before
  the next reload.

## Main results

* `Modellbahn.now_linearizable`: `now` returns the reading of an instant during the call.
* `Modellbahn.now_returns`: how many accesses a call makes.
* `Modellbahn.clock_accuracy`: the readings do not go back, and they agree with the time passed.
-/

namespace Modellbahn

/-- A call of `now`, up to its next access. -/
inductive Now
  /-- No call yet. -/
  | idle
  /-- At `interrupt = false`. -/
  | clear (c : ChronoClock)
  /-- At `val = SysTick->VAL`. -/
  | readVal (c : ChronoClock)
  /-- At the reading of the time. -/
  | readTime (c : ChronoClock) (val : BitVec 32)
  /-- At `while(interrupt)`. -/
  | check (c : ChronoClock) (val time : BitVec 32)
  | returned (c : ChronoClock) (result : BitVec 32)
  deriving DecidableEq, Repr

/-- The registers of the timer, whether its exception is pending, the variables of
`systick_timer.cpp`, of which `time` are `milli_time` and `micro_time`, and a call of `now`. -/
structure Clock where
  load : BitVec 32
  val : BitVec 32
  pending : Bool
  time : ChronoClock → BitVec 32
  perNcycles : ChronoClock → BitVec 32
  interrupt : Bool
  now : Now

/-- What happens to the clock. -/
inductive ClockEvent
  /-- The timer counts. -/
  | count
  /-- `SysTick_Handler` runs. -/
  | handler
  /-- `now` is called. -/
  | call (c : ChronoClock)
  /-- The call makes its next access. -/
  | access
  deriving DecidableEq, Repr

/-- Why an event cannot happen. -/
inductive ClockFault
  /-- The handler runs without an exception. -/
  | notPending
  /-- A call during a call, or an access outside of one. -/
  | misplaced
  deriving DecidableEq, Repr

namespace Clock

/-- `SysTickTimer::initialize` and `enable`, up to the first reload. -/
def enable (frequency : ℕ) : Clock where
  load := reload frequency
  val := reload frequency
  pending := false
  time := fun _ => 0
  perNcycles := fun c => ticksPerNcycles c frequency
  interrupt := false
  now := .idle

/-- The timer counts. A reload makes the exception pending, also if it is pending already. -/
def count (s : Clock) : Clock :=
  if s.val = 0 then { s with val := s.load, pending := true } else { s with val := s.val - 1 }

/-- `SysTick_Handler`. -/
def handler (s : Clock) : Clock :=
  { s with pending := false, time := fun c => s.time c + c.step, interrupt := true }

/-- One access of `milli_clock::now` or `micro_clock::now`. -/
def access (s : Clock) : Except ClockFault Clock :=
  match s.now with
  | .clear c => .ok { s with interrupt := false, now := .readVal c }
  | .readVal c => .ok { s with now := .readTime c s.val }
  | .readTime c val => .ok { s with now := .check c val (s.time c) }
  | .check c val time =>
    if s.interrupt then .ok { s with now := .clear c }
    else .ok { s with now := .returned c (nowTicks s.load val time (s.perNcycles c)) }
  | .idle => .error .misplaced
  | .returned _ _ => .error .misplaced

/-- A call of `now`. -/
def call (s : Clock) (c : ChronoClock) : Except ClockFault Clock :=
  match s.now with
  | .idle => .ok { s with now := .clear c }
  | .returned _ _ => .ok { s with now := .clear c }
  | _ => .error .misplaced

/-- One event. -/
def step (s : Clock) : ClockEvent → Except ClockFault Clock
  | .count => .ok s.count
  | .handler => if s.pending then .ok s.handler else .error .notPending
  | .call c => s.call c
  | .access => s.access

end Clock

/-- The call is at the check of the flag. -/
def Now.isCheck : Now → Bool
  | .check _ _ _ => true
  | _ => false

/-- **The handler is in time**: it is not due any more when the counter is reloaded or `now` checks
the flag. -/
def HandlerInTime (s : Clock) : ClockEvent → Prop
  | .count => s.val = 0 → s.pending = false
  | .access => s.now.isCheck = true → s.pending = false
  | _ => True

instance (s : Clock) : ∀ e, Decidable (HandlerInTime s e)
  | .count => inferInstanceAs (Decidable (s.val = 0 → s.pending = false))
  | .access => inferInstanceAs (Decidable (s.now.isCheck = true → s.pending = false))
  | .handler => isTrue trivial
  | .call _ => isTrue trivial

/-- The number of counts of the timer. -/
def counts (es : List ClockEvent) : ℕ := es.count .count

/-- The number of runs of the handler. -/
def handlers (es : List ClockEvent) : ℕ := es.count .handler

/-- The number of accesses of `now`. -/
def accesses (es : List ClockEvent) : ℕ := es.count .access

/-! ### The timer and its variables -/

/-- The state of the timer after `n` counts and `h` runs of the handler. -/
structure Counts (frequency n h : ℕ) (s : Clock) : Prop where
  load : s.load = reload frequency
  perNcycles : ∀ c, s.perNcycles c = ticksPerNcycles c frequency
  val : s.val.toNat = (reload frequency).toNat - n % period frequency
  time : ∀ c, s.time c = BitVec.ofNat 32 (c.step.toNat * h)

namespace Counts

variable {frequency n h : ℕ} {s t : Clock}

theorem enable (frequency : ℕ) : Counts frequency 0 0 (Clock.enable frequency) where
  load := rfl
  perNcycles := fun _ => rfl
  val := by rw [Nat.zero_mod, Nat.sub_zero]; rfl
  time := fun c => by cases c <;> rfl

theorem of_eq (hc : Counts frequency n h s) (hload : t.load = s.load) (hval : t.val = s.val)
    (htime : t.time = s.time) (hper : t.perNcycles = s.perNcycles) : Counts frequency n h t where
  load := hload.trans hc.load
  perNcycles := fun c => by rw [hper, hc.perNcycles]
  val := by rw [hval, hc.val]
  time := fun c => by rw [htime, hc.time]

theorem val_eq_zero_iff (hc : Counts frequency n h s) :
    s.val = 0 ↔ n % period frequency + 1 = period frequency := by
  have hr : n % period frequency < period frequency := Nat.mod_lt _ (Nat.succ_pos _)
  have hperiod : period frequency = (reload frequency).toNat + 1 := rfl
  have hval := hc.val
  constructor
  · intro hzero
    have hval' : 0 = (reload frequency).toNat - n % period frequency := by
      rw [← hval, hzero]
      rfl
    omega
  · intro hlast
    have hzero : s.val.toNat = 0 := by omega
    exact BitVec.eq_of_toNat_eq hzero

theorem succ_div_mod (hc : Counts frequency n h s) :
    (n + 1) / period frequency = n / period frequency + (if s.val = 0 then 1 else 0) ∧
      (n + 1) % period frequency = if s.val = 0 then 0 else n % period frequency + 1 := by
  have hr : n % period frequency < period frequency := Nat.mod_lt _ (Nat.succ_pos _)
  split_ifs with hzero
  · exact succ_div_mod_of_eq (hc.val_eq_zero_iff.mp hzero)
  · have hne : n % period frequency + 1 ≠ period frequency := fun h =>
      hzero (hc.val_eq_zero_iff.mpr h)
    exact succ_div_mod_of_lt (by omega)

theorem count (hc : Counts frequency n h s) : Counts frequency (n + 1) h s.count := by
  have hval := hc.val
  have hmod := hc.succ_div_mod.2
  rw [Clock.count]
  split_ifs at hmod ⊢ with hzero
  · refine ⟨hc.load, hc.perNcycles, ?_, hc.time⟩
    rw [hmod, Nat.sub_zero, hc.load]
  · refine ⟨hc.load, hc.perNcycles, ?_, hc.time⟩
    have hpos : 0 < s.val.toNat :=
      Nat.pos_of_ne_zero fun h0 => hzero (BitVec.eq_of_toNat_eq h0)
    have hone : (s.val - 1).toNat = s.val.toNat - 1 :=
      BitVec.toNat_sub_of_le (BitVec.le_def.mpr hpos)
    rw [hmod, hone]
    omega

theorem handler (hc : Counts frequency n h s) : Counts frequency n (h + 1) s.handler where
  load := hc.load
  perNcycles := hc.perNcycles
  val := hc.val
  time := fun c => by
    change s.time c + c.step = _
    rw [hc.time, Nat.mul_succ, BitVec.ofNat_add, BitVec.ofNat_toNat, BitVec.setWidth_eq]

theorem access (hc : Counts frequency n h s) (hstep : s.access = .ok t) :
    Counts frequency n h t ∧ t.pending = s.pending := by
  rw [Clock.access] at hstep
  split at hstep
  case h_4 =>
    split_ifs at hstep
    all_goals
      cases hstep
      exact ⟨hc.of_eq rfl rfl rfl rfl, rfl⟩
  all_goals
    cases hstep
    try exact ⟨hc.of_eq rfl rfl rfl rfl, rfl⟩

theorem call (hc : Counts frequency n h s) {c : ChronoClock} (hstep : s.call c = .ok t) :
    Counts frequency n h t ∧ t.pending = s.pending ∧ t.now = .clear c := by
  rw [Clock.call] at hstep
  split at hstep
  all_goals
    cases hstep
    try exact ⟨hc.of_eq rfl rfl rfl rfl, rfl, rfl⟩

theorem step {e : ClockEvent} (hc : Counts frequency n h s) (hstep : s.step e = .ok t) :
    Counts frequency (n + counts [e]) (h + handlers [e]) t := by
  cases e with
  | count =>
    cases hstep
    exact hc.count
  | handler =>
    rw [Clock.step] at hstep
    split_ifs at hstep
    cases hstep
    exact hc.handler
  | call c => exact (hc.call hstep).1
  | access => exact (hc.access hstep).1

theorem run {es : List ClockEvent} (hc : Counts frequency n h s)
    (hrun : Machine.run Clock.step s es = .ok t) :
    Counts frequency (n + counts es) (h + handlers es) t := by
  refine Machine.run_history (motive := fun es t =>
    Counts frequency (n + counts es) (h + handlers es) t) ?_ hc hrun
  intro es s e t hs hstep
  simpa only [counts, handlers, List.count_append, Nat.add_assoc] using hs.step hstep

/-! ### The handler -/

/-- The handler runs at most once for each reload, and once more if it is due. -/
theorem handlers_step {e : ClockEvent} (hc : Counts frequency n h s) (hstep : s.step e = .ok t) :
    handlers [e] + t.pending.toNat + n / period frequency ≤
      s.pending.toNat + (n + counts [e]) / period frequency := by
  cases e with
  | count =>
    cases hstep
    have hdiv : (n + counts [.count]) / period frequency = _ := hc.succ_div_mod.1
    have hnone : handlers [.count] = 0 := rfl
    rw [hdiv, hnone, Clock.count]
    split_ifs
    · have htrue : (true).toNat = 1 := rfl
      dsimp only
      omega
    · dsimp only
      omega
  | handler =>
    rw [Clock.step] at hstep
    split_ifs at hstep with hpending
    cases hstep
    rw [hpending]
    exact Nat.le_refl _
  | call c =>
    rw [(hc.call hstep).2.1]
    exact Nat.le_of_eq (congrArg (· + _) (Nat.zero_add _))
  | access =>
    rw [(hc.access hstep).2]
    exact Nat.le_of_eq (congrArg (· + _) (Nat.zero_add _))

theorem handlers_run {es : List ClockEvent} (hc : Counts frequency n h s)
    (hrun : Machine.run Clock.step s es = .ok t) :
    handlers es + t.pending.toNat + n / period frequency ≤
      s.pending.toNat + (n + counts es) / period frequency := by
  refine (Machine.run_history (motive := fun es t =>
    Counts frequency (n + counts es) (h + handlers es) t ∧
      handlers es + t.pending.toNat + n / period frequency ≤
        s.pending.toNat + (n + counts es) / period frequency) ?_
    ⟨hc, Nat.le_of_eq (congrArg (· + _) (Nat.zero_add _))⟩ hrun).2
  intro es u e t ⟨hu, hle⟩ hstep
  have hcounts := hu.step hstep
  have hone := hu.handlers_step hstep
  simp only [counts, handlers, List.count_append, ← Nat.add_assoc] at hcounts hone hle ⊢
  exact ⟨hcounts, by omega⟩

end Counts

/-- The state where the handler has been in time: each reload has added its quarter of a second, or
its handler is due. -/
structure Punctual (frequency n h : ℕ) (s : Clock) : Prop extends Counts frequency n h s where
  reloads : n / period frequency = h + s.pending.toNat

namespace Punctual

variable {frequency n h : ℕ} {s t : Clock}

theorem enable (frequency : ℕ) : Punctual frequency 0 0 (Clock.enable frequency) where
  toCounts := .enable frequency
  reloads := by rw [Nat.zero_div]; rfl

theorem step {e : ClockEvent} (hp : Punctual frequency n h s) (hintime : HandlerInTime s e)
    (hstep : s.step e = .ok t) :
    Punctual frequency (n + counts [e]) (h + handlers [e]) t := by
  refine ⟨hp.toCounts.step hstep, ?_⟩
  have hreloads := hp.reloads
  cases e with
  | count =>
    cases hstep
    have hdiv : (n + counts [.count]) / period frequency = _ := hp.succ_div_mod.1
    rw [hdiv, hreloads, Clock.count]
    split_ifs with hzero
    · rw [hintime hzero]
      rfl
    · rfl
  | handler =>
    rw [Clock.step] at hstep
    split_ifs at hstep with hpending
    cases hstep
    rw [hpending] at hreloads
    exact hreloads
  | call c =>
    rw [(hp.call hstep).2.1]
    exact hreloads
  | access =>
    rw [(hp.access hstep).2]
    exact hreloads

theorem run {es : List ClockEvent} (hp : Punctual frequency n h s)
    (hintime : Machine.Along Clock.step HandlerInTime s es)
    (hrun : Machine.run Clock.step s es = .ok t) :
    Punctual frequency (n + counts es) (h + handlers es) t := by
  refine Machine.run_history_along (motive := fun es t =>
    Punctual frequency (n + counts es) (h + handlers es) t) ?_ hp hintime hrun
  intro es s e t hs hintime hstep
  simpa only [counts, handlers, List.count_append, Nat.add_assoc] using hs.step hintime hstep

end Punctual

/-! ### The call -/

/-- What a call that began after `first` counts has read. The values that it has read belong
together, to the instant after `m` counts, unless the handler has run since it cleared the flag;
then the flag is set. -/
def Reads (frequency first n h : ℕ) (s : Clock) : Prop :=
  match s.now with
  | .readTime _ val => ∃ m, first ≤ m ∧ m ≤ n ∧
      val.toNat = (reload frequency).toNat - m % period frequency ∧
      (s.interrupt = false → m / period frequency = h ∨
        m / period frequency = h + 1 ∧ s.pending = true)
  | .check c val time => ∃ m, first ≤ m ∧ m ≤ n ∧
      val.toNat = (reload frequency).toNat - m % period frequency ∧
      (s.interrupt = false → time = BitVec.ofNat 32 (c.step.toNat * h) ∧
        (m / period frequency = h ∨ m / period frequency = h + 1 ∧ s.pending = true))
  | .returned c result => ∃ m, first ≤ m ∧ m ≤ n ∧
      result = BitVec.ofNat 32 (ticks c frequency m)
  | _ => True

namespace Reads

variable {frequency first n h : ℕ} {s t : Clock}

theorem count (hr : Reads frequency first n h s) : Reads frequency first (n + 1) h s.count := by
  have hnow : s.count.now = s.now := by
    rw [Clock.count]
    split_ifs <;> rfl
  have hinterrupt : s.count.interrupt = s.interrupt := by
    rw [Clock.count]
    split_ifs <;> rfl
  have hpending : s.pending = true → s.count.pending = true := by
    intro hp
    rw [Clock.count]
    split_ifs
    · rfl
    · exact hp
  rw [Reads, hnow, hinterrupt]
  rw [Reads] at hr
  split at hr
  · obtain ⟨m, hfirst, hm, hval, hread⟩ := hr
    exact ⟨m, hfirst, hm.trans (Nat.le_succ n), hval, fun hi =>
      (hread hi).imp_right fun hp => ⟨hp.1, hpending hp.2⟩⟩
  · obtain ⟨m, hfirst, hm, hval, hread⟩ := hr
    exact ⟨m, hfirst, hm.trans (Nat.le_succ n), hval, fun hi =>
      ⟨(hread hi).1, (hread hi).2.imp_right fun hp => ⟨hp.1, hpending hp.2⟩⟩⟩
  · obtain ⟨m, hfirst, hm, hresult⟩ := hr
    exact ⟨m, hfirst, hm.trans (Nat.le_succ n), hresult⟩
  · trivial

theorem handler (hr : Reads frequency first n h s) :
    Reads frequency first n (h + 1) s.handler := by
  rw [Reads, show s.handler.now = s.now from rfl]
  rw [Reads] at hr
  split at hr
  · obtain ⟨m, hfirst, hm, hval, -⟩ := hr
    exact ⟨m, hfirst, hm, hval, fun hi => by cases hi⟩
  · obtain ⟨m, hfirst, hm, hval, -⟩ := hr
    exact ⟨m, hfirst, hm, hval, fun hi => by cases hi⟩
  · exact hr
  · trivial

theorem access (hc : Punctual frequency n h s) (hr : Reads frequency first n h s)
    (hfirst : first ≤ n) (hintime : HandlerInTime s .access) (hstep : s.access = .ok t) :
    Reads frequency first n h t := by
  rw [Reads] at hr
  rw [Clock.access] at hstep
  cases hnow : s.now with
  | idle => simp [hnow] at hstep
  | clear c =>
    rw [hnow] at hstep
    cases hstep
    trivial
  | readVal c =>
    rw [hnow] at hstep
    cases hstep
    refine ⟨n, hfirst, le_rfl, hc.val, fun _ => ?_⟩
    have hreloads := hc.reloads
    cases hpending : s.pending with
    | false =>
      rw [hpending] at hreloads
      exact Or.inl hreloads
    | true =>
      rw [hpending] at hreloads
      exact Or.inr ⟨hreloads, rfl⟩
  | readTime c val =>
    rw [hnow] at hstep hr
    cases hstep
    obtain ⟨m, hm⟩ := hr
    exact ⟨m, hm.1, hm.2.1, hm.2.2.1, fun hi => ⟨hc.time c, hm.2.2.2 hi⟩⟩
  | check c val time =>
    rw [hnow] at hstep hr
    obtain ⟨m, hm, hmn, hval, hread⟩ := hr
    have hpending : s.pending = false := hintime (by rw [hnow]; rfl)
    simp only at hstep
    split_ifs at hstep with hinterrupt
    · cases hstep
      trivial
    · -- No exception is pending, so the values belong together.
      obtain ⟨htime, hreloads⟩ := hread (by simpa using hinterrupt)
      have hdiv : m / period frequency = h := hreloads.resolve_right fun hp => by
        rw [hpending] at hp
        cases hp.2
      cases hstep
      refine ⟨m, hm, hmn, ?_⟩
      rw [hc.load, hc.perNcycles, htime, ← hdiv, nowTicks_eq_ticks c frequency m hval]
  | returned c result => simp [hnow] at hstep

theorem step {e : ClockEvent} (hc : Punctual frequency n h s) (hr : Reads frequency first n h s)
    (hfirst : first ≤ n) (he : ∀ c, e ≠ .call c) (hintime : HandlerInTime s e)
    (hstep : s.step e = .ok t) :
    Reads frequency first (n + counts [e]) (h + handlers [e]) t := by
  cases e with
  | count =>
    cases hstep
    exact hr.count
  | handler =>
    rw [Clock.step] at hstep
    split_ifs at hstep
    cases hstep
    exact hr.handler
  | call c => exact absurd rfl (he c)
  | access => exact hr.access hc hfirst hintime hstep

theorem run {es : List ClockEvent} (hc : Punctual frequency n h s) (hr : Reads frequency n n h s)
    (hes : ∀ c, .call c ∉ es) (hintime : Machine.Along Clock.step HandlerInTime s es)
    (hrun : Machine.run Clock.step s es = .ok t) :
    Reads frequency n (n + counts es) (h + handlers es) t := by
  refine (Machine.run_history_along (motive := fun es t => (∀ c, .call c ∉ es) →
    Punctual frequency (n + counts es) (h + handlers es) t ∧
      Reads frequency n (n + counts es) (h + handlers es) t) ?_ (fun _ => ⟨hc, hr⟩) hintime hrun
    hes).2
  intro es s e t hs hintime hstep hcall
  obtain ⟨hcs, hrs⟩ := hs fun c hmem => hcall c (List.mem_append_left _ hmem)
  have he : ∀ c, e ≠ .call c := fun c heq => hcall c (by simp [heq])
  have hct := hcs.step hintime hstep
  have hrt := hrs.step hcs (Nat.le_add_right _ _) he hintime hstep
  simp only [counts, handlers, List.count_append, ← Nat.add_assoc] at hct hrt ⊢
  exact ⟨hct, hrt⟩

end Reads

/-- **A call of `now` returns the reading of an instant during the call.** Whatever has happened
since the timer was enabled, calls included, and however the timer counts and its handler runs in
time between the accesses, the result is the reading after a number of counts between those at the
call and those at the return, modulo `2 ^ 32`. -/
theorem now_linearizable (frequency : ℕ) (es es' : List ClockEvent) (s t : Clock)
    (c : ChronoClock) (result : BitVec 32)
    (hs : Machine.run Clock.step (Clock.enable frequency) es = .ok s)
    (ht : Machine.run Clock.step s (.call c :: es') = .ok t) (hcall : ∀ c', .call c' ∉ es')
    (hintime : Machine.Along Clock.step HandlerInTime (Clock.enable frequency)
      (es ++ .call c :: es'))
    (hresult : t.now = .returned c result) :
    ∃ n, counts es ≤ n ∧ n ≤ counts es + counts es' ∧
      result = BitVec.ofNat 32 (ticks c frequency n) := by
  obtain ⟨hbefore, hduring⟩ := Machine.along_append hintime hs
  have hp := (Punctual.enable frequency).run hbefore hs
  rw [Nat.zero_add, Nat.zero_add] at hp
  obtain ⟨u, hsu, hut⟩ := Machine.run_cons_eq_ok.mp ht
  have hpu : Punctual frequency (counts es) (handlers es) u := hp.step hduring.1 hsu
  have hr : Reads frequency (counts es) (counts es) (handlers es) u := by
    rw [Reads, (hp.call hsu).2.2]
    trivial
  have hrt := hr.run hpu hcall (hduring.2 u (by rw [hsu]; rfl)) hut
  rw [Reads, hresult] at hrt
  exact hrt

/-- With four counts to a period: the counter is reloaded between the readings of `VAL` and of the
time, and both are read again. -/
theorem now_linearizable_reload :
    ∃ s t, Machine.run Clock.step (Clock.enable 16) [.count, .count, .count] = .ok s ∧
      Machine.run Clock.step s [.call .milli, .access, .access, .count, .handler, .access, .access,
        .access, .access, .access, .access] = .ok t ∧
      t.now = .returned .milli 250 ∧
      ∃ n, 3 ≤ n ∧ n ≤ 4 ∧ (250 : BitVec 32) = BitVec.ofNat 32 (ticks .milli 16 n) :=
  ⟨_, _, rfl, rfl, rfl, now_linearizable 16 [.count, .count, .count]
    [.access, .access, .count, .handler, .access, .access, .access, .access, .access, .access]
    _ _ .milli 250 rfl rfl (by simp) (by decide) rfl⟩

/-- A handler that is not in time: after four counts, a quarter of a second, the result is 0. -/
example : (Machine.run Clock.step (Clock.enable 16) [.count, .count, .count, .count, .call .milli,
    .access, .access, .access, .access]).map Clock.now = .ok (.returned .milli 0) := by
  rfl

/-! ### The number of accesses -/

/-- The accesses since the loop of `now` was last entered. -/
def Now.position : Now → ℕ
  | .idle => 0
  | .clear _ => 0
  | .readVal _ => 1
  | .readTime _ _ => 2
  | .check _ _ _ => 3
  | .returned _ _ => 4

/-- The call has returned. -/
def Now.isReturned : Now → Bool
  | .returned _ _ => true
  | _ => false

/-- After `a` accesses and `h` runs of the handler, the loop has been left to be entered again `k`
times, each time because of another run of the handler. -/
def Tries (a h : ℕ) (s : Clock) : Prop :=
  ∃ k, a = 4 * k + s.now.position ∧ k ≤ h ∧
    (s.interrupt = true → s.now.position ∈ [1, 2, 3] → k + 1 ≤ h)

namespace Tries

variable {a h : ℕ} {s t : Clock}

theorem of_handler (ht : Tries a h s) : Tries a (h + 1) s.handler := by
  obtain ⟨k, ha, hk, -⟩ := ht
  exact ⟨k, ha, Nat.le_succ_of_le hk, fun _ _ => Nat.succ_le_succ hk⟩

theorem of_count (ht : Tries a h s) : Tries a h s.count := by
  obtain ⟨k, ha, hk, hi⟩ := ht
  rw [Clock.count]
  split_ifs
  · exact ⟨k, ha, hk, hi⟩
  · exact ⟨k, ha, hk, hi⟩

theorem of_access (ht : Tries a h s) (hstep : s.access = .ok t) : Tries (a + 1) h t := by
  obtain ⟨k, ha, hk, hi⟩ := ht
  rw [Clock.access] at hstep
  cases hnow : s.now with
  | idle => simp [hnow] at hstep
  | clear c =>
    rw [hnow] at hstep ha
    cases hstep
    exact ⟨k, by rw [ha]; rfl, hk, fun hfalse => by cases hfalse⟩
  | readVal c =>
    rw [hnow] at hstep ha hi
    cases hstep
    exact ⟨k, by rw [ha]; rfl, hk, fun hinterrupt _ => hi hinterrupt (by simp [Now.position])⟩
  | readTime c val =>
    rw [hnow] at hstep ha hi
    cases hstep
    exact ⟨k, by rw [ha]; rfl, hk, fun hinterrupt _ => hi hinterrupt (by simp [Now.position])⟩
  | check c val time =>
    rw [hnow] at hstep ha hi
    simp only at hstep
    split_ifs at hstep with hinterrupt
    · -- The flag is set, so the handler has run once more.
      cases hstep
      exact ⟨k + 1, by rw [ha]; rfl, hi hinterrupt (by simp [Now.position]),
        fun _ hmem => by simp [Now.position] at hmem⟩
    · cases hstep
      exact ⟨k, by rw [ha]; rfl, hk, fun _ hmem => by simp [Now.position] at hmem⟩
  | returned c result => simp [hnow] at hstep

theorem of_step {e : ClockEvent} (ht : Tries a h s) (he : ∀ c, e ≠ .call c)
    (hstep : s.step e = .ok t) : Tries (a + accesses [e]) (h + handlers [e]) t := by
  cases e with
  | count =>
    cases hstep
    exact ht.of_count
  | handler =>
    rw [Clock.step] at hstep
    split_ifs at hstep
    cases hstep
    exact ht.of_handler
  | call c => exact absurd rfl (he c)
  | access => exact ht.of_access hstep

theorem of_run {es : List ClockEvent} (ht : Tries 0 0 s) (hes : ∀ c, .call c ∉ es)
    (hrun : Machine.run Clock.step s es = .ok t) : Tries (accesses es) (handlers es) t := by
  refine Machine.run_history (motive := fun es t => (∀ c, .call c ∉ es) →
    Tries (accesses es) (handlers es) t) ?_ (fun _ => ht) hrun hes
  intro es s e t hs hstep hcall
  have hts := hs fun c hmem => hcall c (List.mem_append_left _ hmem)
  have he : ∀ c, e ≠ .call c := fun c heq => hcall c (by simp [heq])
  simpa only [accesses, handlers, List.count_append] using hts.of_step he hstep

end Tries

/-- **A call of `now` returns.** A call during which the counter is reloaded `r` times makes at most
`4 * (r + 2)` accesses, however they are interleaved with the timer and its handler, in time or not,
and when it has made so many, it has returned. -/
theorem now_returns (frequency : ℕ) (es es' : List ClockEvent) (s t : Clock) (c : ChronoClock)
    (r : ℕ) (hs : Machine.run Clock.step (Clock.enable frequency) es = .ok s)
    (ht : Machine.run Clock.step s (.call c :: es') = .ok t) (hcall : ∀ c', .call c' ∉ es')
    (hr : (counts es + counts es') / period frequency = counts es / period frequency + r) :
    accesses es' ≤ 4 * (r + 2) ∧
      (accesses es' = 4 * (r + 2) → t.now.isReturned = true) := by
  have hc := (Counts.enable frequency).run hs
  rw [Nat.zero_add, Nat.zero_add] at hc
  obtain ⟨u, hsu, hut⟩ := Machine.run_cons_eq_ok.mp ht
  obtain ⟨hcu, hpending, hnow⟩ := hc.call hsu
  have htries : Tries 0 0 u :=
    ⟨0, by rw [hnow]; rfl, le_rfl, fun _ hmem => by simp [hnow, Now.position] at hmem⟩
  obtain ⟨k, ha, hk, -⟩ := htries.of_run hcall hut
  -- Every reload brings one run of the handler at most, and that of an earlier one may be due.
  have hhandlers : handlers es' ≤ r + 1 := by
    have hrun := hcu.handlers_run hut
    have hdue := u.pending.toNat_le
    rw [hr] at hrun
    omega
  cases hlast : t.now with
  | returned c result =>
    rw [hlast, Now.position] at ha
    exact ⟨by omega, fun _ => rfl⟩
  | _ =>
    rw [hlast, Now.position] at ha
    exact ⟨by omega, fun heq => by omega⟩

/-- In the same run the call makes eight accesses. -/
theorem now_returns_reload :
    ∃ s t, Machine.run Clock.step (Clock.enable 16) [.count, .count, .count] = .ok s ∧
      Machine.run Clock.step s [.call .milli, .access, .access, .count, .handler, .access, .access,
        .access, .access, .access, .access] = .ok t ∧ (8 ≤ 4 * (1 + 2) ∧
      (8 = 4 * (1 + 2) → t.now.isReturned = true)) :=
  ⟨_, _, rfl, rfl, now_returns 16 [.count, .count, .count]
    [.access, .access, .count, .handler, .access, .access, .access, .access, .access, .access]
    _ _ .milli 1 rfl rfl (by simp) rfl⟩

/-! ### The readings and the time -/

/-- **The readings and the time.** For every frequency that `initialize` accepts, of at least 16 Hz:
after any events with the handler in time, and none due, `now` reads the `ticks` of the counts so
far, modulo `2 ^ 32`. These are never less than earlier ones. Where a quarter of a second has a
whole number of counts, they are at most the time of the counts, in ticks of the clock, and if
moreover a tick is longer than a count, less than `1 + 1 / 256` ticks below it, however long the
clock has run. Where a tick is exactly as long as a count, as for the microseconds at 8 MHz, the
multiplier wraps around to zero, and the clock stands still between reloads. -/
theorem clock_accuracy (c : ChronoClock) (frequency : ℕ) (hmin : 16 ≤ frequency)
    (hmax : frequency < 2 ^ 29) :
    (∀ es s, Machine.run Clock.step (Clock.enable frequency) es = .ok s →
      Machine.Along Clock.step HandlerInTime (Clock.enable frequency) es → s.pending = false →
      nowTicks s.load s.val (s.time c) (s.perNcycles c) =
        BitVec.ofNat 32 (ticks c frequency (counts es))) ∧
      Monotone (ticks c frequency) ∧
      (4 * divider frequency ∣ frequency → ∀ n,
        ticks c frequency n * frequency ≤ n * (divider frequency * c.perSecond) ∧
          (divider frequency * c.perSecond < frequency →
            256 * (n * (divider frequency * c.perSecond)) <
              (256 * (ticks c frequency n + 1) + 1) * frequency)) ∧
      (divider frequency * c.perSecond = frequency → ∀ n,
        ticks c frequency n = c.step.toNat * (n / period frequency)) := by
  refine ⟨fun es s hrun hintime hpending => ?_, monotone_ticks hmin hmax, fun hdvd n =>
    ⟨ticks_mul_le hmin hmax hdvd n, fun hfit => lt_ticks_mul hmin hmax hdvd hfit n⟩,
    fun heq n => ticks_of_eq hmin heq n⟩
  have hp := (Punctual.enable frequency).run hintime hrun
  rw [Nat.zero_add, Nat.zero_add] at hp
  have hreloads : counts es / period frequency = handlers es := by
    rw [hp.reloads, hpending]
    rfl
  rw [hp.load, hp.perNcycles, hp.time, ← hreloads, nowTicks_eq_ticks c frequency _ hp.val]

/-- On the board the timer counts at 22.5 MHz. The milliseconds after three counts, and after any
number of them. -/
theorem clock_accuracy_board :
    ∃ s, Machine.run Clock.step (Clock.enable systemClockFrequency) [.count, .count, .count] =
        .ok s ∧
      nowTicks s.load s.val (s.time .milli) (s.perNcycles .milli) =
        BitVec.ofNat 32 (ticks .milli systemClockFrequency 3) ∧
      Monotone (ticks .milli systemClockFrequency) ∧
      ∀ n, ticks .milli systemClockFrequency n * systemClockFrequency ≤ n * 8000 ∧
        256 * (n * 8000) < (256 * (ticks .milli systemClockFrequency n + 1) + 1) *
          systemClockFrequency := by
  obtain ⟨hnow, hmono, htime, -⟩ :=
    clock_accuracy .milli systemClockFrequency (by decide) (by decide)
  exact ⟨_, rfl, hnow [.count, .count, .count] _ rfl (by decide) (by decide), hmono,
    fun n => (htime (by decide) n).imp_right fun h => h (by decide)⟩

end Modellbahn
