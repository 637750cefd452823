import MusicPart.Chord.Snap
import MusicPart.Note.Intake
import MusicPart.Proofs.ExactTime
import MusicPart.Proofs.FittedPitches

/-!
# Bounds

What the readers of notes promise: numbers within those of MIDI, pitches within a range, and times
within a selection.
-/

namespace MusicPart

/-! ### Numbers -/

theorem Midi.clamp_eq {low high : Int} (n : Int) (h : low ≤ high) :
    Midi.clamp n low high = max low (min n high) := by
  rw [Midi.clamp]
  split
  · omega
  · split <;> omega

theorem Midi.clamp_mem {low high : Int} (n : Int) (h : low ≤ high) :
    low ≤ Midi.clamp n low high ∧ Midi.clamp n low high ≤ high := by
  rw [Midi.clamp_eq n h]
  omega

/-! ### Pitches -/

/-- A range of MIDI pitches that holds at least one. -/
def PitchRange.Sound (r : PitchRange) : Prop := 0 ≤ r.low ∧ r.low ≤ r.high ∧ r.high ≤ 127

def PitchRange.Within (r : PitchRange) (pitch : Int) : Prop := r.low ≤ pitch ∧ pitch ≤ r.high

theorem Pitch.fit_within {r : PitchRange} (h : r.Sound) (pitch : Int) (octave : Bool) :
    r.Within (Midi.clampData (Pitch.fit pitch r.low r.high octave)) := by
  have hle := h.2.1
  have hfit : r.Within (Pitch.fit pitch r.low r.high octave) := by
    have hmem := Pitch.fit_mem pitch r.low r.high octave
    rwa [Set.uIcc_of_le hle] at hmem
  rw [Midi.clampData]
  rw [Midi.clamp_eq _ (by decide)]
  obtain ⟨h0, -, h1⟩ := h
  obtain ⟨hl, hr⟩ := hfit
  constructor <;> omega

theorem Harmony.snapped_within {r : PitchRange} (h : r.Sound) (tones : List Int)
    (pitch direction : Int) : r.Within (Harmony.snapped r tones pitch direction) := by
  rw [Harmony.snapped]
  cases hn : Harmony.nearest? r tones pitch direction with
  | none =>
      obtain ⟨h0, hle, h1⟩ := h
      have := Midi.clamp_mem pitch (show max 0 r.low ≤ min 127 r.high by omega)
      simp only [Option.getD_none, PitchRange.Within]
      omega
  | some p =>
      obtain ⟨i, -, hfound⟩ := List.exists_of_findSome?_eq_some hn
      have hfits := List.find?_some hfound
      simp only [Harmony.fits, PitchRange.contains, Bool.and_eq_true, decide_eq_true_eq] at hfits
      exact hfits.1.2

/-! ### Times -/

/-- A note lies in a selection and is not shorter than the shortest note. -/
structure Note.Held (length : Rat) (n : Note Rat) : Prop where
  start_nonneg : 0 ≤ n.start
  shortest_le : Note.shortest ≤ n.duration
  finish_le : n.finish ≤ length

theorem Note.boundTime_held {length : Rat} (h : Note.shortest ≤ length) (start duration : Rat) :
    0 ≤ (Note.boundTime length start duration).1 ∧
      Note.shortest ≤ (Note.boundTime length start duration).2 ∧
      (Note.boundTime length start duration).1 + (Note.boundTime length start duration).2 ≤
        length := by
  simp only [Note.shortest_eq] at h
  have hstart := Exact.clamp_mem start (le_max_left (0 : Rat) (length - 1 / 16))
  rw [max_eq_right (by linarith : (0 : Rat) ≤ length - 1 / 16)] at hstart
  have hle : (1 / 16 : Rat) ≤ max (1 / 16) duration := le_max_left _ _
  rw [Note.boundTime]
  simp only [Exact.greater_eq_max, Exact.zero_eq, Note.shortest_eq]
  rw [max_eq_right (by linarith : (0 : Rat) ≤ length - 1 / 16)]
  split
  · rw [max_eq_right (by linarith [hstart.2])]
    exact ⟨hstart.1, by linarith [hstart.2], by linarith⟩
  · rename_i hfit
    exact ⟨hstart.1, hle, not_lt.mp hfit⟩

theorem Note.bound_held {length : Rat} (h : Note.shortest ≤ length) (i : Instrument Rat)
    (n : Note Rat) : (Note.bound length i n).Held length := by
  obtain ⟨h0, hd, hf⟩ := Note.boundTime_held h n.start n.duration
  exact ⟨h0, hd, hf⟩

end MusicPart
