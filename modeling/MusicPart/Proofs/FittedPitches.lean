import Mathlib
import MusicPart.Pitch

/-!
# Fitting pitches

A pitch outside of a range goes to the closest pitch of its class within, if there is one and octaves
are tried, and to the closest bound otherwise. Going octave by octave, up to the lower bound and then
down to the upper one, finds that pitch, and leaps over a range without one.
-/

namespace MusicPart.Pitch

variable {low high pitch : Int}

/-! ### Octave by octave -/

/-- Goes up by octaves as long as a pitch is below a bound. -/
def climb (low pitch : Int) : Int := if pitch < low then climb low (pitch + 12) else pitch
termination_by (low - pitch).toNat

/-- Goes down by octaves as long as a pitch is above a bound. -/
def descend (high pitch : Int) : Int :=
  if high < pitch then descend high (pitch - 12) else pitch
termination_by (pitch - high).toNat

theorem climb_eq (low pitch : Int) : climb low pitch =
    if pitch < low then pitch + 12 * ((low - pitch + 11) / 12) else pitch := by
  fun_induction climb low pitch with
  | case1 pitch h ih =>
      rw [ih, if_pos h]
      split <;> omega
  | case2 pitch h => rw [if_neg h]

theorem descend_eq (high pitch : Int) : descend high pitch =
    if high < pitch then pitch - 12 * ((pitch - high + 11) / 12) else pitch := by
  fun_induction descend high pitch with
  | case1 pitch h ih =>
      rw [ih, if_pos h]
      split <;> omega
  | case2 pitch h => rw [if_neg h]

/-- What is computed at once is what going octave by octave comes to. -/
theorem shiftOctaves_eq (pitch low high : Int) :
    shiftOctaves pitch low high = descend high (climb low pitch) := by
  rw [descend_eq, climb_eq, shiftOctaves]

/-- The way up ends at the first pitch of the class that is not below the bound. -/
theorem isLeast_climb (low pitch : Int) :
    IsLeast {q | low ≤ q ∧ pitch ≤ q ∧ classOf q = classOf pitch} (climb low pitch) := by
  fun_induction climb low pitch with
  | case1 pitch h ih =>
      have hsame : {q | low ≤ q ∧ pitch ≤ q ∧ classOf q = classOf pitch} =
          {q | low ≤ q ∧ pitch + 12 ≤ q ∧ classOf q = classOf (pitch + 12)} := by
        ext q
        simp only [Set.mem_ofPred_eq, classOf]
        omega
      rw [hsame]
      exact ih
  | case2 pitch h => exact ⟨⟨not_lt.mp h, le_rfl, rfl⟩, fun q hq => hq.2.1⟩

theorem isGreatest_descend (high pitch : Int) :
    IsGreatest {q | q ≤ high ∧ q ≤ pitch ∧ classOf q = classOf pitch} (descend high pitch) := by
  fun_induction descend high pitch with
  | case1 pitch h ih =>
      have hsame : {q | q ≤ high ∧ q ≤ pitch ∧ classOf q = classOf pitch} =
          {q | q ≤ high ∧ q ≤ pitch - 12 ∧ classOf q = classOf (pitch - 12)} := by
        ext q
        simp only [Set.mem_ofPred_eq, classOf]
        omega
      rw [hsame]
      exact ih
  | case2 pitch h => exact ⟨⟨not_lt.mp h, le_rfl, rfl⟩, fun q hq => hq.2.1⟩

/-- Every pitch on the way is one of the word that holds the pitch, if the word holds an octave
beyond either bound, too. -/
theorem fitsWord_of_octave {half : Int} (h : Quantity.fitsWord half pitch = true)
    (hlow : low + 11 < half) (hhigh : -half ≤ high - 11) :
    Quantity.fitsWord half (climb low pitch) = true ∧
      Quantity.fitsWord half (descend high (climb low pitch)) = true := by
  simp only [Quantity.fitsWord, Bool.and_eq_true, decide_eq_true_eq] at *
  rw [descend_eq, climb_eq]
  split_ifs <;> omega

/-! ### The closest pitch -/

/-- The pitch of a set that is closer to a pitch than every other one. -/
def IsClosest (s : Set Int) (pitch p : Int) : Prop :=
  p ∈ s ∧ ∀ q ∈ s, q ≠ p → |p - pitch| < |q - pitch|

/-- The members of a set that have the class of a pitch. -/
def alike (s : Set Int) (pitch : Int) : Set Int := {q ∈ s | classOf q = classOf pitch}

variable {s u : Set Int} {p : Int}

theorem IsClosest.mono (h : IsClosest u pitch p) (hsub : s ⊆ u) (hp : p ∈ s) :
    IsClosest s pitch p := ⟨hp, fun q hq => h.2 q (hsub hq)⟩

theorem isClosest_self (h : pitch ∈ s) : IsClosest s pitch pitch := by
  refine ⟨h, fun q _ hne => ?_⟩
  rw [sub_self, abs_zero]
  exact abs_pos.mpr (sub_ne_zero.mpr hne)

theorem isClosest_of_isLeast (h : IsLeast s p) (hp : pitch ≤ p) : IsClosest s pitch p := by
  refine ⟨h.1, fun q hq hne => ?_⟩
  have hlt : p < q := lt_of_le_of_ne (h.2 hq) hne.symm
  rw [abs_of_nonneg (by omega), abs_of_nonneg (by omega)]
  omega

theorem isClosest_of_isGreatest (h : IsGreatest s p) (hp : p ≤ pitch) : IsClosest s pitch p := by
  refine ⟨h.1, fun q hq hne => ?_⟩
  have hlt : q < p := lt_of_le_of_ne (h.2 hq) hne
  rw [abs_of_nonpos (by omega), abs_of_nonpos (by omega)]
  omega

theorem classOf_shiftOctaves (pitch low high : Int) :
    classOf (shiftOctaves pitch low high) = classOf pitch := by
  rw [shiftOctaves_eq]
  exact (isGreatest_descend _ _).1.2.2.trans (isLeast_climb _ _).1.2.2

/-- Going octave by octave finds the closest pitch of the class if the range has one. -/
theorem isClosest_shiftOctaves (h : (alike (Set.Icc low high) pitch).Nonempty) :
    IsClosest (alike (Set.Icc low high) pitch) pitch (shiftOctaves pitch low high) := by
  obtain ⟨r, hr, hclass⟩ := h
  obtain ⟨⟨hlow, hup, hsame⟩, hleast⟩ := isLeast_climb low pitch
  rw [shiftOctaves_eq]
  rcases lt_or_ge pitch low with hbelow | habove
  · -- The way up ends within the range, and there is nothing to go down.
    have hle : climb low pitch ≤ r := hleast ⟨hr.1, hbelow.le.trans hr.1, hclass⟩
    have hstay : descend high (climb low pitch) = climb low pitch := by
      rw [descend_eq, if_neg (hle.trans hr.2).not_gt]
    rw [hstay]
    refine isClosest_of_isLeast ⟨⟨⟨hlow, hle.trans hr.2⟩, hsame⟩, fun q hq => ?_⟩ hup
    exact hleast ⟨hq.1.1, hbelow.le.trans hq.1.1, hq.2⟩
  · have hstay : climb low pitch = pitch := by rw [climb_eq, if_neg habove.not_gt]
    obtain ⟨⟨hhigh, hdown, hsame'⟩, hgreatest⟩ := isGreatest_descend high pitch
    rw [hstay]
    rcases le_or_gt pitch high with hin | hbeyond
    · have hself : descend high pitch = pitch := by rw [descend_eq, if_neg hin.not_gt]
      rw [hself]
      exact isClosest_self ⟨⟨habove, hin⟩, rfl⟩
    · have hle : r ≤ descend high pitch := hgreatest ⟨hr.2, hr.2.trans hbeyond.le, hclass⟩
      refine isClosest_of_isGreatest ⟨⟨⟨hr.1.trans hle, hhigh⟩, hsame'⟩, fun q hq => ?_⟩ hdown
      exact hgreatest ⟨hq.1.2, hq.1.2.trans hbeyond.le, hq.2⟩

theorem isClosest_clamp (h : low ≤ high) (pitch : Int) :
    IsClosest (Set.Icc low high) pitch (Midi.clamp pitch low high) := by
  rw [Midi.clamp]
  split_ifs with hbelow habove
  · exact isClosest_of_isLeast (isLeast_Icc h) hbelow.le
  · exact isClosest_of_isGreatest (isGreatest_Icc h) habove.le
  · exact isClosest_self ⟨not_lt.mp hbelow, not_lt.mp habove⟩

/-- From outside of a range the closest pitch is a bound. -/
theorem clamp_eq_or (h : pitch ∉ Set.Icc low high) :
    Midi.clamp pitch low high = low ∨ Midi.clamp pitch low high = high := by
  rw [Midi.clamp]
  split_ifs with hbelow habove
  · exact .inl rfl
  · exact .inr rfl
  · exact absurd ⟨not_lt.mp hbelow, not_lt.mp habove⟩ h

/-! ### Fitting -/

variable {a b : Int} {octave : Bool}

theorem fit_eq (pitch a b : Int) (octave : Bool) : fit pitch a b octave =
    if pitch ∈ Set.Icc (min a b) (max a b) then pitch
    else if octave = true ∧
      shiftOctaves pitch (min a b) (max a b) ∈ Set.Icc (min a b) (max a b) then
        shiftOctaves pitch (min a b) (max a b)
    else Midi.clamp pitch (min a b) (max a b) := by
  have hlow : (if b < a then b else a) = min a b := by split <;> omega
  have hhigh : (if b < a then a else b) = max a b := by split <;> omega
  simp only [fit, hlow, hhigh, Bool.and_eq_true, decide_eq_true_eq, and_assoc, Set.mem_Icc]

theorem fit_of_mem (h : pitch ∈ Set.uIcc a b) (octave : Bool) : fit pitch a b octave = pitch :=
  (fit_eq pitch a b octave).trans (if_pos h)

theorem isClosest_fit_octave (h : (alike (Set.uIcc a b) pitch).Nonempty) :
    IsClosest (alike (Set.uIcc a b) pitch) pitch (fit pitch a b true) := by
  have hshifted := isClosest_shiftOctaves h
  rw [fit_eq]
  split_ifs with hin hfits
  · exact isClosest_self ⟨hin, rfl⟩
  · exact hshifted
  · exact absurd ⟨rfl, hshifted.1.1⟩ hfits

/-- Where octaves do not lead into a range, or are not tried, a pitch goes to the closest one. -/
theorem fit_eq_clamp (h : octave = true → ¬(alike (Set.uIcc a b) pitch).Nonempty)
    (hout : pitch ∉ Set.uIcc a b) :
    fit pitch a b octave = Midi.clamp pitch (min a b) (max a b) := by
  refine (fit_eq pitch a b octave).trans ((if_neg hout).trans (if_neg ?_))
  rintro ⟨hoctave, hin⟩
  exact h hoctave ⟨_, hin, classOf_shiftOctaves _ _ _⟩

theorem isClosest_fit (h : octave = true → ¬(alike (Set.uIcc a b) pitch).Nonempty) :
    IsClosest (Set.uIcc a b) pitch (fit pitch a b octave) := by
  by_cases hin : pitch ∈ Set.uIcc a b
  · rw [fit_of_mem hin]
    exact isClosest_self hin
  · rw [fit_eq_clamp h hin]
    exact isClosest_clamp min_le_max pitch

theorem fit_mem (pitch a b : Int) (octave : Bool) : fit pitch a b octave ∈ Set.uIcc a b := by
  by_cases h : octave = true ∧ (alike (Set.uIcc a b) pitch).Nonempty
  · obtain ⟨rfl, h⟩ := h
    exact (isClosest_fit_octave h).1.1
  · exact (isClosest_fit fun hoctave hnonempty => h ⟨hoctave, hnonempty⟩).1

/-- A range of five semitones has no pitch an octave from middle C. -/
example : fit 60 62 66 true = 62 := by decide

end MusicPart.Pitch
