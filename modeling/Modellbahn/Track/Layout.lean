import Modellbahn.Track.Track

/-!
# The layout

The table `tracks` of `track/layout.hpp`.
-/

namespace Modellbahn

open TrackId

/-- The table `tracks` of the firmware. -/
def tracks : Vector Track 22 := #v[
  .makeSwitch A_d ⟨0, 1⟩ A_c A_3a D_1a ⟨1, 3⟩ ⟨1, 4⟩,
  .makeSwitch A_c ⟨0, 2⟩ A_1a A_2a A_d ⟨1, 5⟩ ⟨1, 6⟩,
  .makeStraight A_1a ⟨0, 3⟩ A_c A_1b,
  .makeStraight A_1b ⟨0, 4⟩ A_1a A_a,
  .makeSwitch A_a ⟨0, 5⟩ A_1b A_b B_1a ⟨1, 7⟩ ⟨2, 0⟩,
  .makeStraight A_2a ⟨0, 6⟩ A_c A_2b,
  .makeStraight A_2b ⟨0, 7⟩ A_2a A_b,
  .makeSwitch A_b ⟨1, 0⟩ A_3b A_2b A_a ⟨2, 1⟩ ⟨2, 2⟩,
  .makeStraight A_3a ⟨1, 1⟩ A_d A_3b,
  .makeStraight A_3b ⟨1, 2⟩ A_3a A_b,
  .makeStraight B_1a ⟨3, 0⟩ A_a C_a,
  .makeSwitch C_a ⟨4, 0⟩ C_2a C_1a B_1a ⟨5, 2⟩ ⟨5, 3⟩,
  .makeStraight C_1a ⟨4, 1⟩ C_a C_1b,
  .makeStraight C_1b ⟨4, 2⟩ C_1a C_b,
  .makeStraight C_2a ⟨4, 3⟩ C_a C_2b,
  .makeStraight C_2b ⟨4, 4⟩ C_2a C_b,
  .makeSwitch C_b ⟨4, 5⟩ C_1b C_2b C_c ⟨5, 4⟩ ⟨5, 5⟩,
  .makeSwitch C_c ⟨4, 6⟩ C_b C_3c D_1a ⟨5, 6⟩ ⟨5, 7⟩,
  .makeStraight C_3a ⟨4, 7⟩ C_3b C_3b,
  .makeStraight C_3b ⟨5, 0⟩ C_3a C_3c,
  .makeStraight C_3c ⟨5, 1⟩ C_3b C_c,
  .makeStraight D_1a ⟨0, 0⟩ C_c A_d]

end Modellbahn
