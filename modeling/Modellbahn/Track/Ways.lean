import Modellbahn.Track.Track
import Mathlib.Tactic.Common

/-!
# Offered ways

The functions `next_track`, `next_tracks` and `make_way_to` of a track are written separately. This
file ties them together. `Piece.Offers p n` says that the valid id `n` is an entry of
`next_tracks(p)`, that is, that a train coming from `p` is offered the way to `n`. An offered way
can be set, and is then the one that `next_track` travels in both directions.

`make_way_to` also answers for ways that are not offered. Its result is truthful exactly where the
way is offered, or where a switch is asked for a way that avoids its common end
(`Track.makeWayTo_truthful_iff`).

## Main results

* `Modellbahn.Straight.offers_iff`, `Modellbahn.SwitchTrack.offers_iff`: the offered ways.
* `Modellbahn.Piece.makeWayTo_of_offers`: an offered way is set and travelled in both directions.
* `Modellbahn.Track.offered_way_is_travelled`, `Modellbahn.Track.makeWayTo_truthful_iff`.
-/

namespace Modellbahn

open TrackId

theorem Ways.first_mem (ways : Ways) : ways.first ∈ ways := Vector.getElem_mem _

theorem Ways.second_mem (ways : Ways) : ways.second ∈ ways := Vector.getElem_mem _

/-- A valid id among the first `k` entries of a list of ways padded with `INVALID`. -/
theorem mem_ways_one {n a : TrackId} (hn : n ≠ INVALID) :
    n ∈ (#v[a, INVALID, INVALID] : Ways) ↔ n = a := by
  simp [hn]

theorem mem_ways_two {n a b : TrackId} (hn : n ≠ INVALID) :
    n ∈ (#v[a, b, INVALID] : Ways) ↔ n = a ∨ n = b := by
  simp [hn]

theorem not_mem_ways {n : TrackId} (hn : n ≠ INVALID) : n ∉ noWays := by
  simp [noWays, hn]

namespace Straight

variable (s : Straight) {p n : TrackId}

/-- Coming from an end, a straight piece offers the other end. The first end goes first. -/
theorem mem_nextTracks_iff (hn : n ≠ INVALID) :
    n ∈ s.nextTracks p ↔
      p = s.trackA ∧ n = s.trackB ∨ p ≠ s.trackA ∧ p = s.trackB ∧ n = s.trackA := by
  rw [nextTracks]
  split_ifs with ha hb
  · rw [mem_ways_one hn]; tauto
  · rw [mem_ways_one hn]; tauto
  · have := not_mem_ways hn; tauto

/-- An offered way is the one travelled, and the way back as well. -/
theorem nextTrack_of_mem (hn : n ≠ INVALID) (h : n ∈ s.nextTracks p) :
    s.nextTrack p = n ∧ s.nextTrack n = p := by
  rw [nextTrack, nextTrack]
  rcases (s.mem_nextTracks_iff hn).mp h with ⟨rfl, rfl⟩ | ⟨ha, rfl, rfl⟩
  · refine ⟨if_pos rfl, ?_⟩
    by_cases hba : s.trackB = s.trackA
    · rw [if_pos hba, hba]
    · rw [if_neg hba, if_pos rfl]
  · exact ⟨by rw [if_neg ha, if_pos rfl], if_pos rfl⟩

end Straight

namespace SwitchTrack

variable (s : SwitchTrack) {p n : TrackId}

/-- Coming from the common end, a switch offers its two legs; coming from a leg, the common end. The
common end goes first. -/
theorem mem_nextTracks_iff (hn : n ≠ INVALID) :
    n ∈ s.nextTracks p ↔
      p = s.trackCommon ∧ (n = s.trackA ∨ n = s.trackB) ∨
        p ≠ s.trackCommon ∧ (p = s.trackA ∨ p = s.trackB) ∧ n = s.trackCommon := by
  rw [nextTracks]
  split_ifs with hc hl
  · rw [mem_ways_two hn]; tauto
  · rw [mem_ways_one hn]; tauto
  · have := not_mem_ways hn; tauto

@[simp] theorem setLeg_trackA (leg : TrackId) : (s.setLeg leg).trackA = s.trackA := by
  rw [setLeg]; split_ifs <;> rfl

@[simp] theorem setLeg_trackB (leg : TrackId) : (s.setLeg leg).trackB = s.trackB := by
  rw [setLeg]; split_ifs <;> rfl

@[simp] theorem setLeg_trackCommon (leg : TrackId) :
    (s.setLeg leg).trackCommon = s.trackCommon := by
  rw [setLeg]; split_ifs <;> rfl

/-- After the way to a leg is set, a train from the common end takes that leg, whichever of the ends
coincide. -/
theorem nextTrack_setLeg_common {leg : TrackId} (h : leg = s.trackA ∨ leg = s.trackB) :
    (s.setLeg leg).nextTrack s.trackCommon = leg := by
  rw [setLeg]
  split_ifs with ha hb
  · simp [nextTrack, ha]
  · simp [nextTrack, hb]
  · exact absurd h (not_or.mpr ⟨ha, hb⟩)

/-- A train from a leg other than the common end takes the common end, in every state. -/
theorem nextTrack_leg {leg : TrackId} (hne : leg ≠ s.trackCommon)
    (h : leg = s.trackA ∨ leg = s.trackB) : s.nextTrack leg = s.trackCommon := by
  rw [nextTrack, if_neg hne, if_pos h]

/-- With the way between the common end and a leg set, each of the two is the next track of the
other. -/
theorem nextTrack_setLeg_leg {leg : TrackId} (h : leg = s.trackA ∨ leg = s.trackB) :
    (s.setLeg leg).nextTrack leg = s.trackCommon := by
  by_cases hc : leg = s.trackCommon
  · have := s.nextTrack_setLeg_common h
    rw [← hc] at this ⊢
    exact this
  · rw [(s.setLeg leg).nextTrack_leg (by simpa using hc) (by simpa using h), setLeg_trackCommon]

/-- An offered way is set, and travelled in both directions. -/
theorem makeWayTo_of_mem (hn : n ≠ INVALID) (h : n ∈ s.nextTracks p) :
    (s.makeWayTo n p).1 = true ∧ (s.makeWayTo n p).2.nextTrack p = n ∧
      (s.makeWayTo n p).2.nextTrack n = p := by
  rcases (s.mem_nextTracks_iff hn).mp h with ⟨rfl, hleg⟩ | ⟨hp, hleg, rfl⟩
  · rw [makeWayTo, if_pos rfl]
    exact ⟨rfl, s.nextTrack_setLeg_common hleg, s.nextTrack_setLeg_leg hleg⟩
  · rw [makeWayTo, if_neg hp, if_pos rfl]
    exact ⟨rfl, s.nextTrack_setLeg_leg hleg, s.nextTrack_setLeg_common hleg⟩

theorem nextTrack_mem (h : s.nextTrack p ≠ INVALID) : s.nextTrack p ∈ s.nextTracks p := by
  refine (s.mem_nextTracks_iff h).mpr ?_
  rw [nextTrack] at h ⊢
  split_ifs at h ⊢ with hc hl
  · cases hstate : s.state <;> simp_all
  · tauto
  · exact absurd rfl h

end SwitchTrack

namespace Piece

variable (q : Piece) {p n : TrackId}

/-- A train that comes from `p` is offered the way to the valid track `n`. -/
def Offers (q : Piece) (p n : TrackId) : Prop := n ≠ INVALID ∧ n ∈ q.nextTracks p

instance (q : Piece) (p n : TrackId) : Decidable (q.Offers p n) :=
  inferInstanceAs (Decidable (_ ∧ _))

/-- **An offered way can be set and is then travelled, in both directions.** -/
theorem makeWayTo_of_offers (h : q.Offers p n) :
    (q.makeWayTo n p).1 = true ∧ (q.makeWayTo n p).2.nextTrack p = n ∧
      (q.makeWayTo n p).2.nextTrack n = p := by
  cases q with
  | straight s => exact ⟨rfl, s.nextTrack_of_mem h.1 h.2⟩
  | switchTrack s => exact s.makeWayTo_of_mem h.1 h.2

theorem offers_nextTrack (h : q.nextTrack p ≠ INVALID) : q.Offers p (q.nextTrack p) := by
  refine ⟨h, ?_⟩
  cases q with
  | straight s =>
    refine (s.mem_nextTracks_iff h).mpr ?_
    simp only [nextTrack, Straight.nextTrack] at h ⊢
    split_ifs at h ⊢ with ha hb
    · exact Or.inl ⟨ha, rfl⟩
    · exact Or.inr ⟨ha, hb, rfl⟩
    · exact absurd rfl h
  | switchTrack s => exact s.nextTrack_mem h

end Piece

namespace Track

variable (t : Track) {dest source : TrackId}

/-- **Every offered way can be set and is then travelled, in both directions**; and a way that is
travelled in some state is offered. The ends of the track are arbitrary ids. -/
theorem offered_way_is_travelled :
    (∀ p n, p ≠ INVALID → n ≠ INVALID → n ∈ t.nextTracks p →
      (t.makeWayTo n p).1 = true ∧ (t.makeWayTo n p).2.nextTrack p = n ∧
        (t.makeWayTo n p).2.nextTrack n = p) ∧
    ∀ p, t.nextTrack p ≠ INVALID → t.nextTrack p ∈ t.nextTracks p :=
  ⟨fun _ _ _ hn h => t.piece.makeWayTo_of_offers ⟨hn, h⟩,
    fun _ h => (t.piece.offers_nextTrack h).2⟩

/-- The way from the common end of `A_c` to its curved leg, both directions. -/
theorem offered_way_is_travelled_A_c :
    ((makeSwitch A_c ⟨0, 2⟩ A_1a A_2a A_d ⟨1, 5⟩ ⟨1, 6⟩).makeWayTo A_2a A_d).1 = true ∧
      ((makeSwitch A_c ⟨0, 2⟩ A_1a A_2a A_d ⟨1, 5⟩ ⟨1, 6⟩).makeWayTo A_2a A_d).2.nextTrack A_d =
        A_2a ∧
      ((makeSwitch A_c ⟨0, 2⟩ A_1a A_2a A_d ⟨1, 5⟩ ⟨1, 6⟩).makeWayTo A_2a A_d).2.nextTrack A_2a =
        A_d :=
  (offered_way_is_travelled _).1 A_d A_2a (by decide) (by decide) (by decide)

/-- The result of `make_way_to(dest, source)` is truthful: where it is `true`, a train from `source`
then goes to `dest`; and where `dest` is no entry of `next_tracks(source)`, it is `false` and the
state of the track is unchanged. -/
def TruthfulAt (t : Track) (dest source : TrackId) : Prop :=
  ((t.makeWayTo dest source).1 = true → (t.makeWayTo dest source).2.nextTrack source = dest) ∧
    (dest ∉ t.nextTracks source →
      (t.makeWayTo dest source).1 = false ∧ (t.makeWayTo dest source).2 = t)

instance (t : Track) (dest source : TrackId) : Decidable (t.TruthfulAt dest source) :=
  inferInstanceAs (Decidable (_ ∧ _))

/-- A switch that is asked for a way that avoids its common end. -/
def AvoidsCommon (t : Track) (dest source : TrackId) : Prop :=
  ∃ s, t.piece = .switchTrack s ∧ source ≠ s.trackCommon ∧ dest ≠ s.trackCommon

theorem truthfulAt_of_mem (hdest : dest ≠ INVALID) (h : dest ∈ t.nextTracks source) :
    t.TruthfulAt dest source :=
  ⟨fun _ => (t.piece.makeWayTo_of_offers ⟨hdest, h⟩).2.1, fun hnot => absurd h hnot⟩

/-- A way that avoids the common end is refused. -/
theorem makeWayTo_of_avoidsCommon (h : t.AvoidsCommon dest source) :
    t.makeWayTo dest source = (false, t) := by
  obtain ⟨s, hs, hsource, hdest⟩ := h
  simp only [makeWayTo, hs, Piece.makeWayTo, SwitchTrack.makeWayTo, if_neg hsource, if_neg hdest]
  rw [← hs]

/-- A way that is not refused is answered with `true`, whether it is offered or not. -/
theorem makeWayTo_of_not_avoidsCommon (h : ¬ t.AvoidsCommon dest source) :
    (t.makeWayTo dest source).1 = true := by
  cases hp : t.piece with
  | straight s => simp only [makeWayTo, hp, Piece.makeWayTo]
  | switchTrack s =>
    simp only [makeWayTo, hp, Piece.makeWayTo, SwitchTrack.makeWayTo]
    split_ifs with hsource hdest
    · rfl
    · rfl
    · exact absurd ⟨s, hp, hsource, hdest⟩ h

/-- **When the result of `make_way_to` is truthful**: exactly where the way is offered, or where a
switch is asked for a way that avoids its common end. -/
theorem makeWayTo_truthful_iff (hdest : dest ≠ INVALID) :
    t.TruthfulAt dest source ↔
      dest ∈ t.nextTracks source ∨ t.AvoidsCommon dest source := by
  constructor
  · intro h
    by_cases havoid : t.AvoidsCommon dest source
    · exact Or.inr havoid
    · refine Or.inl (by_contra fun hnot => ?_)
      have hfalse := (h.2 hnot).1
      rw [t.makeWayTo_of_not_avoidsCommon havoid] at hfalse
      cases hfalse
  · rintro (h | h)
    · exact t.truthfulAt_of_mem hdest h
    · rw [TruthfulAt, t.makeWayTo_of_avoidsCommon h]
      exact ⟨fun hfalse => (by cases hfalse), fun _ => ⟨rfl, rfl⟩⟩

/-- The way from `A_d` over `A_c` to its straight leg. -/
theorem makeWayTo_truthful_iff_A_c :
    (makeSwitch A_c ⟨0, 2⟩ A_1a A_2a A_d ⟨1, 5⟩ ⟨1, 6⟩).TruthfulAt A_1a A_d ↔
      A_1a ∈ (makeSwitch A_c ⟨0, 2⟩ A_1a A_2a A_d ⟨1, 5⟩ ⟨1, 6⟩).nextTracks A_d ∨
        (makeSwitch A_c ⟨0, 2⟩ A_1a A_2a A_d ⟨1, 5⟩ ⟨1, 6⟩).AvoidsCommon A_1a A_d :=
  makeWayTo_truthful_iff _ (by decide)

/-- Asked for the way from `A_d` to the track `B_1a`, to which it is not connected, the switch `A_c`
answers `true`. -/
theorem makeWayTo_not_truthful :
    ¬ ∀ (t : Track) (dest source : TrackId), dest ≠ INVALID → source ≠ INVALID →
      t.TruthfulAt dest source := fun h =>
  absurd (h (.makeSwitch A_c ⟨0, 2⟩ A_1a A_2a A_d ⟨1, 5⟩ ⟨1, 6⟩) B_1a A_d (by decide) (by decide))
    (by decide)

end Track

end Modellbahn
