import MusicPart.Proofs.Splitting

/-!
# Phrases

Phrasing caps notes and then splits each of them by one segment, that of a breath or of a bow.
-/

namespace MusicPart.Note

/-- The breath or bow by which an instrument splits notes, and zero where it splits none. -/
def segmentOf (i : Instrument Rat) (m : Meter) (arranged : Bool) : Rat :=
  if i.family = .wind then i.stamina.breath
  else if i.family = .strings ∧ arranged = true ∧ 0 < i.stamina.bowBars then
    min 1 i.stamina.bowBars * m.barLength
  else 0

theorem flatMap_split_of_nonpos {segment : Rat} (h : segment ≤ 0) (gap : Rat) (maxPieces : Int)
    (notes : List (Note Rat)) : notes.flatMap (split segment gap maxPieces) = notes := by
  have hone : split segment gap maxPieces = fun n => [n] := by
    funext n
    simp [split, h]
  rw [hone]
  exact List.flatMap_singleton' notes

theorem splitBreaths_notes (s : Stamina Rat) (notes : List (Note Rat)) :
    (splitBreaths s notes).notes =
      notes.flatMap (split s.breath (max 0 s.breathGap) s.maxPieces) := by
  rw [splitBreaths]
  simp only [Exact.zero_eq, Exact.greater_eq_max]
  split
  · rename_i h
    exact (flatMap_split_of_nonpos h _ _ notes).symm
  · exact List.flatMap_def.symm

theorem splitBows_perm (s : Stamina Rat) (m : Meter) (notes : List (Note Rat)) :
    (splitBows s m notes).notes.Perm (notes.flatMap (split
      (if 0 < s.bowBars then min 1 s.bowBars * m.barLength else 0) (max 0 s.bowGap) s.maxPieces)) := by
  rw [splitBows]
  simp only [Exact.zero_eq, Exact.one_eq, Exact.greater_eq_max, Exact.lesser_eq_min]
  by_cases h : 0 < s.bowBars
  · rw [if_neg (not_le.mpr (lt_min one_pos h)), if_pos h, List.flatMap_def]
    exact sortByPitch_perm _
  · rw [if_pos (min_le_of_right_le (not_lt.mp h)), if_neg h]
    exact .of_eq (flatMap_split_of_nonpos le_rfl _ _ notes).symm

theorem phrase_perm (i : Instrument Rat) (m : Meter) (general : Text) (arranged : Bool)
    (notes : List (Note Rat)) : ∃ gap, 0 ≤ gap ∧ (phrase i m general arranged notes).notes.Perm
      ((capShort i.articulations general notes).notes.flatMap
        (split (segmentOf i m arranged) gap i.stamina.maxPieces)) := by
  rw [phrase, segmentOf]
  by_cases hw : i.family = .wind
  · refine ⟨max 0 i.stamina.breathGap, le_max_left _ _, ?_⟩
    simp only [hw, beq_self_eq_true, if_true]
    exact .of_eq (splitBreaths_notes _ _)
  · by_cases hb : i.family = .strings ∧ arranged = true
    · refine ⟨max 0 i.stamina.bowGap, le_max_left _ _, ?_⟩
      obtain ⟨hs, ha⟩ := hb
      simpa [hw, hs, ha] using splitBows_perm i.stamina m (capShort i.articulations general notes).notes
    · refine ⟨0, le_rfl, ?_⟩
      have hplain : ¬(i.family = .strings ∧ arranged = true ∧ 0 < i.stamina.bowBars) :=
        fun h => hb ⟨h.1, h.2.1⟩
      rw [if_neg hw, if_neg hplain, flatMap_split_of_nonpos le_rfl]
      simp only [beq_iff_eq, hw, if_false, Bool.and_eq_true, hb]
      exact .rfl

end MusicPart.Note
