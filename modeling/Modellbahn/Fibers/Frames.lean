import Modellbahn.Fibers.Interleaving

/-!
# Transmitted frames

The controller hands the live buffer to the DMA, without a copy and without a lock. A frame whose
bytes are read while the simulation fiber sleeps, with no pass in between, is the buffer at one
boundary of the simulation loop, and so powers at most one track and energises at most one output of
a switch. A pass between two bytes makes a torn frame, which may be the buffer at no boundary, power
two tracks or energise both outputs of a switch (`torn_frame`). What holds of every frame is that
the bits of its byte `k` are each from one of two successive boundaries `f k` and `f k + 1` during
the transmission, and that `f` does not decrease (`frame_consistency`).

## Main definitions

* `Modellbahn.frameBit`, `Modellbahn.SafeFrame`: the outputs in a frame.
* `Modellbahn.Sampled`: the bytes read since a boundary.

## Main results

* `Modellbahn.Sampled.read`: the next byte.
* `Modellbahn.transferring_of_run`: any events between two edges of CS.
* `Modellbahn.Transmits.frame_spec`, `Modellbahn.frame_consistency`, `Modellbahn.torn_frame`.
-/

namespace Modellbahn

open PackedBits

variable {bs : BoardTable} {n : ℕ}

/-! ### Safe frames -/

/-- The bit of the output `pos` in a frame. -/
def frameBit (bs : BoardTable) (bytes : List Byte) (pos : IoPosition) : Bool :=
  match bitAddress bs pos with
  | .error _ => false
  | .ok cell => (bytes[cell.1]?.getD 0).getLsbD cell.2

/-- The frame powers at most one track and energises at most one output of a switch. -/
structure SafeFrame (bs : BoardTable) (tracks : Vector Track n) (bytes : List Byte) : Prop where
  power : ∀ i j : Fin n, frameBit bs bytes (tracks.get i).powerPos = true →
    frameBit bs bytes (tracks.get j).powerPos = true → i = j
  coil : ∀ (i : Fin n) (q : SwitchTrack), (tracks.get i).piece = .switchTrack q →
    ¬ (frameBit bs bytes q.straight = true ∧ frameBit bs bytes q.curved = true)

theorem frameBit_toList (buffer : Vector Byte (calculateBufferSize bs).toNat) (pos : IoPosition) :
    frameBit bs buffer.toList pos = decodeBit bs buffer pos := by
  rw [frameBit, decodeBit]
  cases bitAddress bs pos with
  | error e => rfl
  | ok cell => simp only [image, Vector.getElem?_toList]

theorem decodeBit_zero (pos : IoPosition) :
    decodeBit bs (Vector.replicate _ 0) pos = false := by
  rw [decodeBit]
  cases bitAddress bs pos with
  | error e => rfl
  | ok cell => exact congrFun image_replicate_zero cell

theorem SafeFrame.of_zero (tracks : Vector Track n) :
    SafeFrame bs tracks (Vector.replicate (calculateBufferSize bs).toNat (0 : Byte)).toList where
  power i _ hi _ := by
    rw [frameBit_toList, decodeBit_zero] at hi
    cases hi
  coil _ _ _ hq := by
    rw [frameBit_toList, decodeBit_zero] at hq
    cases hq.1

/-- The buffer of an encoded state in which at most one track has power. -/
theorem SafeFrame.of_encoded {t : Sim bs n} (hencoded : t.Encoded) (hexclusive : t.Exclusive) :
    SafeFrame bs t.tracks t.out.outBuffer.toList where
  power i j hi hj := by
    rw [frameBit_toList, decodeBit_of_bit (hencoded.power _), decide_eq_true_eq] at hi hj
    rw [hexclusive i hi, hexclusive j hj]
  coil i q hq hboth := by
    obtain ⟨hstraight, hcurved⟩ := hencoded.switch i q hq
    rw [frameBit_toList, frameBit_toList, decodeBit_of_bit hstraight, decodeBit_of_bit hcurved,
      decide_eq_true_eq, decide_eq_true_eq] at hboth
    rw [hboth.1] at hboth
    cases hboth.2

/-- The outputs of a table are those of the table as constructed. -/
theorem SafeFrame.of_sameTable {v w : Vector Track n} {bytes : List Byte} (h : SameTable v w)
    (hw : SafeFrame bs w bytes) : SafeFrame bs v bytes where
  power i j hi hj := by
    rw [h.powerPos_eq] at hi hj
    exact hw.power i j hi hj
  coil i q hq hboth := by
    have hpiece := h.piece_eq i
    rw [hq] at hpiece
    cases hp : (w.get i).piece with
    | straight u => rw [hp] at hpiece; cases hpiece
    | switchTrack u =>
      rw [hp] at hpiece
      obtain ⟨-, -, -, -, hstraight, hcurved⟩ := SwitchTrack.mk.inj (Piece.switchTrack.inj hpiece)
      rw [hstraight, hcurved] at hboth
      exact hw.coil i u hp hboth

/-- **The buffer at a boundary is a safe frame**, at the first boundary too. -/
theorem safeFrame_of_simulate (hfit : bs.Fits) {s t : Sim bs n} (h : s.Routed)
    (hwired : Wired bs s.tracks) (hoff : ∀ i : Fin n, (s.tracks.get i).powerstate = .off)
    (hzero : s.out.outBuffer = Vector.replicate _ 0) {rs : List Bool}
    (hrun : simulate s rs = .ok t) : SafeFrame bs s.tracks t.out.outBuffer.toList := by
  by_cases hne : rs = []
  · subst hne
    cases hrun
    rw [hzero]
    exact .of_zero _
  · exact .of_sameTable (sameTable_of_simulate h hrun)
      (.of_encoded (encoded_of_simulate hfit h hwired hzero hne hrun)
        (exclusive_of_simulate h (Sim.exclusive_of_off hoff) hrun))

/-! ### The bytes read -/

/-- Each bit of the byte `k` is that of the boundary with the number `f k` or the next one, among
the boundaries from `s` on under the readings `rs`. -/
def Sampled (s : Sim bs n) (rs : List Bool) (f : ℕ → ℕ) (bytes : List Byte) : Prop :=
  ∀ (k : ℕ) (hk : k < bytes.length) (j : ℕ), ∃ i t, (i = f k ∨ i = f k + 1) ∧ i ≤ rs.length ∧
    simulate s (rs.take i) = .ok t ∧ bytes[k].getLsbD j = image t.out.outBuffer (k, j)

namespace Sampled

variable {s : Sim bs n} {rs : List Bool} {f : ℕ → ℕ} {bytes : List Byte}

theorem append (h : Sampled s rs f bytes) (rs' : List Bool) : Sampled s (rs ++ rs') f bytes := by
  intro k hk j
  obtain ⟨i, t, hi, hle, ht, hbit⟩ := h k hk j
  refine ⟨i, t, hi, hle.trans (by simp), ?_, hbit⟩
  rwa [List.take_append_of_le_length hle]

/-- **Reading the next byte** from the live buffer. -/
theorem read (hfit : bs.Fits) (h : Sampled s rs f bytes) {i : ℕ} {c : System bs n}
    (hprogress : Progress s rs i c) (hlt : bytes.length < (calculateBufferSize bs).toNat) :
    Sampled s rs (fun k => if k < bytes.length then f k else i)
      (bytes ++ [c.sim.out.outBuffer[bytes.length]]) := by
  intro k hk j
  rcases Nat.lt_or_ge k bytes.length with hold | hnew
  · simp only [if_pos hold, List.getElem_append_left hold]
    exact h k hold j
  · obtain rfl : k = bytes.length := by
      rw [List.length_append, List.length_singleton] at hk
      omega
    obtain ⟨l, t, hl, hle, ht, hbit⟩ := hprogress.bit_eq hfit (bytes.length, j)
    refine ⟨l, t, by simpa using hl, hle, ht, ?_⟩
    rw [← hbit, image_of_lt hlt, List.getElem_concat_length rfl]

end Sampled

/-- The state of a transfer that started at the boundary `s`. -/
def Transferring (s : Sim bs n) (rs : List Bool) (c : System bs n) : Prop :=
  ∃ i f bytes, Progress s rs i c ∧ c.frame = some bytes ∧
    bytes.length ≤ (calculateBufferSize bs).toNat ∧ Monotone f ∧ (∀ k, f k ≤ i) ∧
    Sampled s rs f bytes

theorem Transferring.step (hfit : bs.Fits) {s : Sim bs n} (hs : s.Routed)
    (hwired : Wired bs s.tracks) {rs : List Bool} {c d : System bs n} {e : Event}
    (h : Transferring s rs c) (heffect : System.Effect c e d) (hlow : e ≠ .csLow)
    (hhigh : e ≠ .csHigh) : Transferring s (rs ++ readings [e]) d := by
  obtain ⟨i, f, bytes, hprogress, hframe, hlength, hmono, hle, hsampled⟩ := h
  obtain ⟨j, hij, hprogress'⟩ := hprogress.step hfit hs hwired heffect
  have hle' : ∀ k, f k ≤ j := fun k => (hle k).trans hij
  cases heffect with
  | csLow => exact absurd rfl hlow
  | csHigh => exact absurd rfl hhigh
  | wake => exact ⟨j, f, bytes, hprogress', hframe, hlength, hmono, hle', hsampled.append _⟩
  | write => exact ⟨j, f, bytes, hprogress', hframe, hlength, hmono, hle', hsampled.append _⟩
  | byte hframe' hlt =>
    obtain rfl := Option.some.inj (hframe.symm.trans hframe')
    refine ⟨j, _, _, hprogress', rfl, by simpa using Nat.succ_le_of_lt hlt, fun k l hkl => ?_,
      fun k => ?_, (hsampled.read hfit hprogress hlt).append _⟩
    · split_ifs with hk hl hl
      · exact hmono hkl
      · exact hle k
      · omega
      · exact le_rfl
    · split_ifs
      · exact hle' k
      · exact hij

/-- **Any events between two edges of CS.** -/
theorem transferring_of_run (hfit : bs.Fits) {s : Sim bs n} (hs : s.Routed)
    (hwired : Wired bs s.tracks) {c d : System bs n} (hsim : c.sim = s) (hpending : c.pending = [])
    (hframe : c.frame = some []) {events : List Event} (hlow : .csLow ∉ events)
    (hhigh : .csHigh ∉ events) (hrun : c.run events = .ok d) :
    Transferring s (readings events) d := by
  induction events using List.reverseRecOn generalizing d with
  | nil =>
    cases hrun
    subst hsim
    exact ⟨0, fun _ => 0, [], .start hpending, hframe, Nat.zero_le _, monotone_const,
      fun _ => le_rfl, fun k hk => absurd hk (Nat.not_lt_zero k)⟩
  | append_singleton events e ih =>
    obtain ⟨b, hb, hstep⟩ := Machine.run_concat_eq_ok.mp hrun
    rw [List.mem_append, not_or, List.mem_singleton] at hlow hhigh
    rw [readings_append]
    exact (ih hlow.1 hhigh.1 hb).step hfit hs hwired (System.effect_of_step hstep)
      (Ne.symm hlow.2) (Ne.symm hhigh.2)

/-! ### Reads without a pass in between -/

theorem run_replicate_byte {c d : System bs n} {bytes : List Byte} (hframe : c.frame = some bytes)
    {m : ℕ} (hrun : c.run (List.replicate m .byte) = .ok d) :
    d.frame = some (bytes ++ (c.sim.out.outBuffer.toList.drop bytes.length).take m) ∧
      bytes.length + m ≤ max bytes.length (calculateBufferSize bs).toNat := by
  induction m generalizing c bytes with
  | zero => cases hrun; simp [hframe]
  | succ m ih =>
    obtain ⟨b, hstep, hrest⟩ := Machine.run_cons_eq_ok.mp hrun
    cases System.effect_of_step hstep with
    | byte hframe' hlt =>
      obtain rfl := Option.some.inj (hframe.symm.trans hframe')
      obtain ⟨hd, hlength⟩ := ih rfl hrest
      have hlt' : bytes.length < c.sim.out.outBuffer.toList.length := by simpa using hlt
      rw [List.length_append, List.length_singleton] at hd hlength
      refine ⟨?_, by omega⟩
      rw [hd, List.drop_eq_getElem_cons hlt', List.take_succ_cons, List.append_assoc]
      rfl

/-- A complete frame does not change before the rising edge. -/
theorem run_of_complete {c d : System bs n} {bytes : List Byte} (hframe : c.frame = some bytes)
    (hlength : bytes.length = (calculateBufferSize bs).toNat) {events : List Event}
    (hhigh : .csHigh ∉ events) (hrun : c.run events = .ok d) : d.frame = some bytes := by
  induction events generalizing c with
  | nil => cases hrun; exact hframe
  | cons e events ih =>
    obtain ⟨b, hstep, hrest⟩ := Machine.run_cons_eq_ok.mp hrun
    rw [List.mem_cons, not_or] at hhigh
    refine ih ?_ hhigh.2 hrest
    cases System.effect_of_step hstep with
    | csLow hnone => rw [hframe] at hnone; cases hnone
    | byte hframe' hlt =>
      obtain rfl := Option.some.inj (hframe.symm.trans hframe')
      omega
    | csHigh => exact absurd rfl hhigh.1
    | wake => exact hframe
    | write => exact hframe

/-- **Reads without a pass in between** make the frame that the buffer is at that time. -/
theorem frame_of_reads {p d : System bs n} {read : List Byte} (hread : p.frame = some read)
    (hle : read.length ≤ (calculateBufferSize bs).toNat) {post : List Event}
    (hhigh : .csHigh ∉ post)
    (hrun : p.run (List.replicate (calculateBufferSize bs).toNat .byte ++ post) = .ok d) :
    d.frame = some p.sim.out.outBuffer.toList := by
  obtain ⟨q, hreads, hpost⟩ := Machine.run_append_eq_ok.mp hrun
  obtain ⟨hq, hmax⟩ := run_replicate_byte hread hreads
  obtain rfl : read = [] := List.eq_nil_of_length_eq_zero (by omega)
  have hall : (p.sim.out.outBuffer.toList.drop 0).take (calculateBufferSize bs).toNat =
      p.sim.out.outBuffer.toList := by
    rw [List.drop_zero]
    exact List.take_of_length_le (by simp)
  rw [List.length_nil, List.nil_append, hall] at hq
  exact run_of_complete hq (by simp) hhigh hpost

/-! ### Transmissions -/

/-- The events lead to a state in which the simulation fiber sleeps. -/
def Asleep (s : Sim bs n) (events : List Event) : Prop :=
  ∃ c, (System.start s).run events = .ok c ∧ c.pending = []

theorem Transmits.exists_run {s : Sim bs n} {before during : List Event} {bytes : List Byte}
    (h : Transmits s before during bytes) :
    ∃ c d, (System.start s).run (before ++ [.csLow]) = .ok c ∧ c.pending = [] ∧
      c.frame = some [] ∧ c.run during = .ok d ∧ d.frame = some bytes ∧
      bytes.length = (calculateBufferSize bs).toNat := by
  obtain ⟨hlow, hhigh, hsent⟩ := h
  cases hrun : (System.start s).run (before ++ .csLow :: during ++ [.csHigh]) with
  | error e => rw [hrun] at hsent; cases hsent
  | ok e =>
    obtain ⟨d, hd, hlast⟩ := Machine.run_concat_eq_ok.mp hrun
    rw [List.append_cons] at hd
    obtain ⟨c, hc, hduring⟩ := Machine.run_append_eq_ok.mp hd
    obtain ⟨b, hb, hfirst⟩ := Machine.run_concat_eq_ok.mp hc
    rw [hrun] at hsent
    cases System.effect_of_step hfirst with
    | csLow _ hpending =>
      cases System.effect_of_step hlast with
      | csHigh hframe hlength _ =>
        obtain rfl := Option.some.inj (Except.ok.inj hsent)
        exact ⟨_, d, hc, hpending, rfl, hduring, hframe, hlength⟩

/-- **Frames of a system from a boundary on.** Take a routed boundary `s₀` with accepted and
distinct positions, and a frame sent between two edges of CS. CS falls at a boundary `s`; every bit
of the frame is that of a boundary from `s` on that the simulation reaches before CS rises, where
byte `k` mixes the boundary `f k` and the next one for some `f` that does not decrease; and a frame
whose bytes are read while the simulation sleeps, without a pass in between, is the buffer at one of
these boundaries. -/
theorem Transmits.frame_spec (hfit : bs.Fits) {s₀ : Sim bs n} (h₀ : s₀.Routed)
    (hwired : Wired bs s₀.tracks) {before during : List Event} {bytes : List Byte}
    (h : Transmits s₀ before during bytes) :
    ∃ s, simulate s₀ (readings before) = .ok s ∧
      bytes.length = (calculateBufferSize bs).toNat ∧
      (∃ f, Monotone f ∧ Sampled s (readings during) f bytes) ∧
      ∀ pre post, during = pre ++ List.replicate (calculateBufferSize bs).toNat .byte ++ post →
        Asleep s₀ (before ++ .csLow :: pre) →
        ∃ t, simulate s (readings pre) = .ok t ∧ bytes = t.out.outBuffer.toList := by
  obtain ⟨c, d, hc, hpending, hempty, hduring, hframe, hlength⟩ := h.exists_run
  obtain ⟨s, hs, hboundary⟩ := System.boundary_of_run hfit h₀ (System.boundary_start s₀) hc
  obtain rfl : c.sim = s :=
    Except.ok.inj ((System.boundary_of_asleep hpending).symm.trans hboundary)
  have hrouted := routed_of_simulate h₀ hs
  have htransfer : ∀ {events : List Event} {e : System bs n}, .csLow ∉ events →
      .csHigh ∉ events → c.run events = .ok e → Transferring c.sim (readings events) e :=
    transferring_of_run hfit hrouted (hwired.of_sameTable (sameTable_of_simulate h₀ hs)) rfl
      hpending hempty
  refine ⟨c.sim, by simpa [readings] using hs, hlength, ?_, fun pre post hsplit hasleep => ?_⟩
  · obtain ⟨-, f, bytes', -, hframe', -, hmono, -, hsampled⟩ :=
      htransfer h.csLow_notMem h.csHigh_notMem hduring
    obtain rfl := Option.some.inj (hframe.symm.trans hframe')
    exact ⟨f, hmono, hsampled⟩
  · have hlow := h.csLow_notMem
    have hhigh := h.csHigh_notMem
    rw [hsplit, List.append_assoc] at hduring hlow hhigh
    simp only [List.mem_append, not_or] at hlow hhigh
    obtain ⟨p, hp, hrest⟩ := Machine.run_append_eq_ok.mp hduring
    have hasleep' : p.pending = [] := by
      obtain ⟨e, he, hasleep⟩ := hasleep
      rw [List.append_cons] at he
      have hep := he.symm.trans (Machine.run_append_eq_ok.mpr ⟨c, hc, hp⟩)
      rwa [Except.ok.inj hep] at hasleep
    obtain ⟨-, -, read, -, hread, hle, -⟩ := htransfer hlow.1 hhigh.1 hp
    obtain ⟨t, ht, ht'⟩ :=
      System.boundary_of_run hfit hrouted (System.boundary_of_asleep hpending) hp
    obtain rfl : p.sim = t := Except.ok.inj ((System.boundary_of_asleep hasleep').symm.trans ht')
    have hd := frame_of_reads hread hle hhigh.2.2 hrest
    exact ⟨p.sim, ht, Option.some.inj (hframe.symm.trans hd)⟩

/-- **Frames of the firmware.** In every interleaving of the two fibers and the DMA, CS falls at a
boundary `s` of the simulation. Each bit of the frame then sent is that of a boundary between `s`
and the rising edge of CS: a bit of byte `k` is from the boundary `f k` or the next one, where `f`
does not decrease. A frame whose bytes are read while the simulation sleeps, without a pass in
between, is the complete buffer at one such boundary, and powers at most one track and energises at
most one output of a switch. -/
theorem frame_consistency (before during : List Event) (bytes : List Byte)
    (h : Transmits Sim.initial before during bytes) :
    ∃ s, simulate Sim.initial (readings before) = .ok s ∧ bytes.length = 7 ∧
      (∃ f, Monotone f ∧ Sampled s (readings during) f bytes) ∧
      ∀ pre post, during = pre ++ List.replicate 7 .byte ++ post →
        Asleep Sim.initial (before ++ .csLow :: pre) →
        ∃ t, simulate s (readings pre) = .ok t ∧ bytes = t.out.outBuffer.toList ∧
          SafeFrame boards tracks bytes := by
  obtain ⟨s, hs, hlength, hsampled, hquiet⟩ := h.frame_spec boards_fits routed_initial wired_tracks
  refine ⟨s, hs, hlength, hsampled, fun pre post hsplit hasleep => ?_⟩
  obtain ⟨t, ht, hbytes⟩ := hquiet pre post hsplit hasleep
  refine ⟨t, ht, hbytes, ?_⟩
  rw [hbytes]
  exact safeFrame_of_simulate boards_fits routed_initial wired_tracks off_initial rfl
    (Machine.run_append_eq_ok.mpr ⟨s, hs, ht⟩)

/-- A pass with the given number of calls of `set_buffer`. -/
def passEvents (button : Bool) (calls : ℕ) : List Event :=
  .wake button :: List.replicate calls .write

/-- The frame after the first pass, which powers `A_a`. -/
theorem frame_consistency_first_pass :
    ∃ s, simulate Sim.initial (readings (passEvents false 22)) = .ok s ∧
      [0, 0, 0, 0, 0, 0, 0x20].length = 7 ∧
      (∃ f, Monotone f ∧
        Sampled s (readings (List.replicate 7 .byte)) f [0, 0, 0, 0, 0, 0, 0x20]) ∧
      ∀ pre post, List.replicate 7 .byte = pre ++ List.replicate 7 .byte ++ post →
        Asleep Sim.initial (passEvents false 22 ++ .csLow :: pre) →
        ∃ t, simulate s (readings pre) = .ok t ∧
          [0, 0, 0, 0, 0, 0, 0x20] = t.out.outBuffer.toList ∧
          SafeFrame boards tracks [0, 0, 0, 0, 0, 0, 0x20] :=
  frame_consistency (passEvents false 22) (List.replicate 7 .byte) [0, 0, 0, 0, 0, 0, 0x20]
    (by decide +kernel)

/-! ### Torn frames -/

/-- Seven passes, after which the train is on `C_c`. -/
def tornBefore : List Event := [22, 24, 24, 26, 26, 26, 28].flatMap (passEvents false)

/-- The bytes of the boards `6` to `1`, the pass from `C_c` to `D_1a`, and the byte of board `0`. -/
def tornDuring : List Event := List.replicate 6 .byte ++ passEvents false 30 ++ [.byte]

/-- The bytes read: `C_c` has power in the third one and `D_1a` in the last one. -/
def tornFrame : List Byte := [0x00, 0x24, 0x40, 0x00, 0x00, 0x80, 0x01]

/-- Twenty-five passes, the button pressed in the tenth one: over `A_3a` and `A_b` to `A_a`, which
is then curved, and once more round to `A_a`. -/
def coilBefore : List Event :=
  [22, 24, 24, 26, 26, 26, 28, 30, 30].flatMap (passEvents false) ++ passEvents true 32 ++
    [32, 32, 34, 34, 34, 34, 34, 34, 34, 34, 34, 34, 36, 36, 36].flatMap (passEvents false)

/-- The bytes of the boards `6` to `2`, the pass that sets `A_a` straight, and the other bytes. -/
def coilDuring : List Event :=
  List.replicate 5 .byte ++ passEvents false 36 ++ List.replicate 2 .byte

/-- The bytes read: the fifth one has the curved output of `A_a` and the sixth one the straight
output. -/
def coilFrame : List Byte := [0x00, 0x64, 0x00, 0x00, 0x03, 0xa8, 0x00]

/-- **Torn frames.** A pass between two bytes makes a frame that powers both `C_c` and `D_1a` and is
the buffer at no boundary, and a frame that energises both outputs of `A_a`. -/
theorem torn_frame :
    (Transmits Sim.initial tornBefore tornDuring tornFrame ∧
      (∀ rs s, simulate Sim.initial rs = .ok s → s.out.outBuffer.toList ≠ tornFrame) ∧
      frameBit boards tornFrame ⟨4, 6⟩ = true ∧ frameBit boards tornFrame ⟨0, 0⟩ = true) ∧
    Transmits Sim.initial coilBefore coilDuring coilFrame ∧
      frameBit boards coilFrame ⟨1, 7⟩ = true ∧ frameBit boards coilFrame ⟨2, 0⟩ = true := by
  have hunsafe : ¬ SafeFrame boards tracks tornFrame := fun h =>
    absurd (h.power 17 21 (by decide) (by decide)) (by decide)
  refine ⟨⟨by decide +kernel, fun rs s hrun he => hunsafe (he ▸ ?_), by decide, by decide⟩,
    by decide +kernel, by decide, by decide⟩
  exact safeFrame_of_simulate boards_fits routed_initial wired_tracks off_initial rfl hrun

end Modellbahn
