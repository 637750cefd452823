import MusicPart.Proofs.Instruments
import MusicPart.Proofs.Monophony
import MusicPart.Score

/-!
# Taking in and snapping

Every note that is taken in lies within the selection. Snapping to chords rearranges notes and moves
pitches, and only within the range.
-/

namespace MusicPart

open Json (Value)

namespace Note

/-- What a note in a part fulfils: it lies within the selection and the range, and its numbers are
those of MIDI. -/
structure Fits (length : Rat) (range : PitchRange) (n : Note Rat) : Prop extends
    Held length n where
  pitch : range.Within n.pitch
  velocity : 1 ≤ n.velocity ∧ n.velocity ≤ 127
  channel : 1 ≤ n.channel ∧ n.channel ≤ 16

variable {length : Rat} {i : Instrument Rat}

theorem Held.shorten {a b : Note Rat} (h : a.Held length) (hs : Shortens a b) : b.Held length where
  start_nonneg := hs.start_eq ▸ h.start_nonneg
  shortest_le := hs.shortest_le h.shortest_le
  finish_le := hs.finish_le.trans h.finish_le

theorem Fits.shorten {range : PitchRange} {a b : Note Rat} (h : a.Fits length range)
    (hs : Shortens a b) : b.Fits length range where
  toHeld := h.toHeld.shorten hs
  pitch := hs.pitch_eq ▸ h.pitch
  velocity := hs.velocity_eq ▸ h.velocity
  channel := hs.channel_eq ▸ h.channel

theorem bound_fits (hi : i.Sound) (h : shortest ≤ length) (n : Note Rat) :
    (bound length i n).Fits length i.range where
  toHeld := bound_held h i n
  pitch := Pitch.fit_within hi.range _ _
  velocity := Midi.clamp_mem _ (by decide)
  channel := Midi.clamp_mem _ (by decide)

/-! ### Taking in -/

theorem boundAll_notes {α : Type} [Quantity α] (length : α) (i : Instrument α)
    (raws : List (Value α)) (notes : List (Note α)) :
    (boundAll length i raws notes).notes = notes.map (bound length i) := by
  simp only [boundAll, List.map_map]
  rfl

theorem boundAll_shortest_le (h : shortest ≤ length) (i : Instrument Rat) (raws : List (Value Rat))
    (notes : List (Note Rat)) : ∀ n ∈ (boundAll length i raws notes).notes, shortest ≤ n.duration := by
  rw [boundAll_notes]
  intro n hn
  obtain ⟨m, -, rfl⟩ := List.mem_map.mp hn
  exact (bound_held h i m).shortest_le

/-- A note that is taken in is some note brought into its bounds, and perhaps made shorter. -/
theorem exists_bound_shortens {m : Meter} {raws : List (Value Rat)} {n : Note Rat}
    (hn : n ∈ (takeIn length m i raws).notes) :
    shortest ≤ length ∧ ∃ a, Shortens (bound length i a) n := by
  rw [takeIn] at hn
  split at hn
  · rename_i hl
    refine ⟨hl, ?_⟩
    generalize raws.filterMap (read? m i.channel) = notes at hn
    have hbound : ∀ n ∈ (boundAll length i raws notes).notes, ∃ a, n = bound length i a := by
      rw [boundAll_notes]
      intro n hn
      obtain ⟨a, -, rfl⟩ := List.mem_map.mp hn
      exact ⟨a, rfl⟩
    simp only at hn
    split at hn
    · have htrims := monophonic_trims _ (boundAll_shortest_le hl i raws notes)
      obtain ⟨b, hb, hbn⟩ := htrims.exists_mem n hn
      obtain ⟨a, rfl⟩ := hbound b hb
      exact ⟨a, hbn⟩
    · obtain ⟨a, rfl⟩ := hbound n hn
      exact ⟨a, .refl _⟩
  · exact absurd hn List.not_mem_nil

theorem takeIn_held {m : Meter} {raws : List (Value Rat)} :
    ∀ n ∈ (takeIn length m i raws).notes, n.Held length := by
  intro n hn
  obtain ⟨hl, a, ha⟩ := exists_bound_shortens hn
  exact (bound_held hl i a).shorten ha

theorem takeIn_fits (hi : i.Sound) {m : Meter} {raws : List (Value Rat)} :
    ∀ n ∈ (takeIn length m i raws).notes, n.Fits length i.range := by
  intro n hn
  obtain ⟨hl, a, ha⟩ := exists_bound_shortens hn
  exact (bound_fits hi hl a).shorten ha

theorem takeIn_apart (hm : i.mono = true) (m : Meter) (raws : List (Value Rat)) :
    (takeIn length m i raws).notes.Pairwise Apart := by
  rw [takeIn]
  rw [hm]
  split
  · rename_i hl
    exact monophonic_apart _ (boundAll_shortest_le hl i raws _)
  · exact .nil

end Note

/-- A note of a hit has the pitch of its drum and what the hit tells, brought into bounds. -/
theorem Hit.exists_of_note? {α : Type} [Quantity α] {length : α} {m : Meter} {i : Instrument α}
    {raw : Value α} {n : Note α} (hn : (Hit.read length m i raw).note? = some n) :
    ∃ name pitch start duration velocity, Hit.drumName? raw = some name ∧
      i.drums.find? (Text.lower name) = some pitch ∧
      Hit.values? m raw = some (start, duration, velocity) ∧
      n = ⟨(Note.boundTime length start duration).1, (Note.boundTime length start duration).2,
        Midi.clampData pitch, Midi.clampVelocity velocity,
        Midi.channelOr i.channel (raw.first? ["chan", "channel"]), []⟩ := by
  rw [Hit.read] at hn
  split at hn
  · exact nomatch hn
  · rename_i name hname
    split at hn
    · exact nomatch hn
    · rename_i pitch hpitch
      split at hn
      · exact nomatch hn
      · rename_i start duration velocity hvalues
        cases hn
        exact ⟨name, pitch, start, duration, velocity, hname, hpitch, hvalues, rfl⟩

theorem Hit.exists_of_mem_takeIn {α : Type} [Quantity α] {length : α} {m : Meter}
    {i : Instrument α} {raws : List (Value α)} {n : Note α}
    (hn : n ∈ (Hit.takeIn length m i raws).notes) :
    Note.shortest ≤ length ∧ ∃ start duration pitch velocity, ∃ channel : Option (Value α),
      n = ⟨(Note.boundTime length start duration).1, (Note.boundTime length start duration).2,
        Midi.clampData pitch, Midi.clampVelocity velocity, Midi.channelOr i.channel channel, []⟩ := by
  rw [Hit.takeIn] at hn
  split at hn
  · rename_i hl
    obtain ⟨hit, hhit, hn⟩ := List.mem_filterMap.mp hn
    obtain ⟨raw, -, rfl⟩ := List.mem_map.mp hhit
    obtain ⟨-, pitch, start, duration, velocity, -, -, -, rfl⟩ := Hit.exists_of_note? hn
    exact ⟨hl, start, duration, pitch, velocity, _, rfl⟩
  · exact absurd hn List.not_mem_nil

theorem Hit.takeIn_held {length : Rat} (m : Meter) (i : Instrument Rat) (raws : List (Value Rat)) :
    ∀ n ∈ (Hit.takeIn length m i raws).notes, n.Held length := by
  intro n hn
  obtain ⟨hl, start, duration, _, _, _, rfl⟩ := Hit.exists_of_mem_takeIn hn
  obtain ⟨h0, hd, hf⟩ := Note.boundTime_held hl start duration
  exact ⟨h0, hd, hf⟩

/-! ### Snapping -/

namespace Harmony

variable {α : Type}

/-- The second note is the first one, perhaps moved to where snapping to the range puts it. -/
structure Moves (range : PitchRange) (a b : Note α) : Prop where
  same : b = { a with pitch := b.pitch }
  pitch : b.pitch = a.pitch ∨
    ∃ tones pitch direction, b.pitch = snapped range tones pitch direction

theorem Moves.held {range : PitchRange} {a b : Note Rat} {length : Rat} (h : Moves range a b)
    (ha : a.Held length) : b.Held length := by
  rw [h.same]
  exact ⟨ha.start_nonneg, ha.shortest_le, ha.finish_le⟩

theorem moves_snapped {range : PitchRange} (n : Note α) (tones : List Int) (direction : Int) :
    Moves range n (moved n
      (if snapped range tones n.pitch direction = n.pitch then .stay
        else .move (snapped range tones n.pitch direction))) := by
  split
  · exact ⟨rfl, Or.inl rfl⟩
  · exact ⟨rfl, Or.inr ⟨tones, n.pitch, direction, rfl⟩⟩

variable [Quantity α]

theorem moved_moves (map : List (Harmony α)) (range : PitchRange) (previous : Option Int)
    (n : Note α) : Moves range n (moved n (moveOf map range previous n)) := by
  have hstay : Moves range n n := ⟨rfl, Or.inl rfl⟩
  rw [moveOf]
  split
  · exact hstay
  · split
    · exact hstay
    · split
      · exact hstay
      · split
        · exact hstay
        · exact moves_snapped n _ _

theorem zipWith_moves (map : List (Harmony α)) (range : PitchRange) (previous : Option Int)
    (notes : List (Note α)) : List.Forall₂ (Moves range) notes
      (List.zipWith moved notes (moves map range previous notes)) := by
  induction notes generalizing previous with
  | nil => exact .nil
  | cons n notes ih => exact .cons (moved_moves map range previous n) (ih _)

theorem snap_moves (map : List (Harmony α)) (range : PitchRange) (notes : List (Note α)) :
    List.Forall₂ (Moves range) (Note.sort notes) (snap map range notes).notes :=
  zipWith_moves map range none (Note.sort notes)

end Harmony

end MusicPart
