import MusicPart.Proofs.Stages

/-!
# Parts within a selection

Every stage keeps the notes of a part within the selection, the range of the instrument and the
numbers of MIDI. Only bows can be shorter than the shortest note, so only the pieces of a bow can
reach beyond the note they come from.
-/

namespace MusicPart

open Json (Value)

namespace Note.Fits

variable {length : Rat} {range : PitchRange} {a b n : Note Rat}

theorem moves (h : a.Fits length range) (hr : range.Sound) (hm : Harmony.Moves range a b) :
    b.Fits length range where
  toHeld := hm.held h.toHeld
  pitch := by
    rcases hm.pitch with hp | ⟨tones, pitch, direction, hp⟩
    · exact hp ▸ h.pitch
    · exact hp ▸ Harmony.snapped_within hr tones pitch direction
  velocity := by
    rw [hm.same]
    exact h.velocity
  channel := by
    rw [hm.same]
    exact h.channel

theorem split {segment gap : Rat} (h : n.Fits length range) (hs : NotShort segment) (hg : 0 ≤ gap)
    (maxPieces : Int) : ∀ p ∈ split segment gap maxPieces n, p.Fits length range := by
  intro p hp
  have hd := h.shortest_le
  obtain ⟨hstart, -, hshortest⟩ := split_begins maxPieces hd hp
  have hfinish := hs.split_finish_le maxPieces hg hd hp
  obtain ⟨i, -, rfl⟩ := mem_split maxPieces hd hp
  exact ⟨⟨h.start_nonneg.trans hstart, hshortest, hfinish.trans h.finish_le⟩, h.pitch, h.velocity,
    h.channel⟩

theorem routes {s : Articulator Rat} (h : a.Fits length range)
    (hc : 1 ≤ s.channel ∧ s.channel ≤ 16) (hr : s.Routes a b) : b.Fits length range where
  start_nonneg := hr.start_eq ▸ h.start_nonneg
  shortest_le := hr.duration_eq ▸ h.shortest_le
  finish_le := hr.finish_eq ▸ h.finish_le
  pitch := hr.pitch_eq ▸ h.pitch
  velocity := hr.velocity_eq ▸ h.velocity
  channel := by
    rcases hr.channel with hch | ⟨-, x, hch⟩
    · exact hch ▸ h.channel
    · exact hch ▸ s.channelOf_mem hc x

end Note.Fits

/-- An instrument that was read splits notes at breaths only, unless strings are arranged. -/
theorem Instrument.Sound.notShort {i : Instrument Rat} (hi : i.Sound) (m : Meter) {arranged : Bool}
    (hb : i.family ≠ .strings ∨ arranged = false) :
    Note.NotShort (Note.segmentOf i m arranged) := by
  rw [Note.segmentOf]
  split
  · exact Or.inr hi.breath
  · rw [if_neg]
    · exact Or.inl le_rfl
    · rintro ⟨hs, ha, -⟩
      rcases hb with hb | hb
      · exact hb hs
      · exact absurd ha (by simp [hb])

theorem Score.delivered_fits {i : Instrument Rat} (hi : i.Sound) (hd : i.isDrum = false)
    {s : Settings Rat} (hb : i.family ≠ .strings ∨ s.arranged = false) (candidate : Value Rat) :
    ∀ n ∈ (Score.ofCandidate i s candidate).delivered.notes, n.Fits s.span i.range := by
  have htaken : ∀ n ∈ (ofCandidate i s candidate).taken.notes, n.Fits s.span i.range := by
    change ∀ n ∈ (takeIn i s candidate _).notes, _
    rw [takeIn]
    rw [hd]
    exact Note.takeIn_fits hi
  have hsnapped : ∀ n ∈ (ofCandidate i s candidate).snapped.notes, n.Fits s.span i.range := by
    intro n hn
    obtain ⟨m, hm, hmn⟩ := mem_snapped hn
    exact (htaken m hm).moves hi.range hmn
  have hseparated : ∀ n ∈ (ofCandidate i s candidate).separated.notes, n.Fits s.span i.range := by
    intro n hn
    obtain ⟨m, hm, hmn⟩ := mem_separated hn
    exact (hsnapped m hm).shorten hmn
  have hphrased : ∀ n ∈ (ofCandidate i s candidate).phrased.notes, n.Fits s.span i.range := by
    obtain ⟨gap, hg, hperm⟩ := phrased_perm i s candidate
    intro n hn
    obtain ⟨c, hc, hn⟩ := List.mem_flatMap.mp (hperm.mem_iff.mp hn)
    obtain ⟨m, hm, hmc⟩ := mem_capped hc
    exact ((hseparated m hm).shorten hmc).split (hi.notShort s.meter hb) hg _ n hn
  obtain ⟨before, hperm, hroutes⟩ := delivered_routes i s candidate
  intro n hn
  obtain ⟨m, hm, hmn⟩ := Note.exists_mem_of_forall₂ hroutes hn
  exact (hphrased m (hperm.mem_iff.mp hm)).routes hi.channel hmn

/-- A pitched part whose notes are not bowed lies within its selection, its instrument's range and
the numbers of MIDI, and its notes are in order. -/
theorem Part.compile_fits {raw : Value Rat} {i : Instrument Rat} (hi : Instrument.read? raw = some i)
    (hd : i.isDrum = false) {s : Settings Rat} (hb : i.family ≠ .strings ∨ s.arranged = false)
    {candidate : Value Rat} (hc : candidate.isObject = true) :
    ∃ part, Part.compile i s candidate = .ok part ∧
      (∀ n ∈ part.notes, n.Fits (max 0 s.length) i.range) ∧
      part.notes.Pairwise Note.InOrder := by
  refine ⟨_, Part.compile_ok i s hc, ?_, Note.sort_inOrder _⟩
  intro n hn
  rw [← Settings.span_eq]
  have hmem := (Note.sort_perm _).mem_iff.mp hn
  exact Score.delivered_fits (Instrument.read?_sound hi) hd hb candidate n hmem

/-- A flute of one voice that breathes every two quarter notes. -/
def flute : Value Rat :=
  .object [("family", .string "woodwind"),
    ("range", .object [("absolute", .array [.string "C4", .number 96])]),
    ("midi", .object [("polyphony", .string "mono"), ("channel", .number 3)]),
    ("duration_policy", .object [("max_phrase_q", .number 2)])]

def flutist : Instrument Rat := (Instrument.read? flute).get (by decide)

/-- Two notes that overlap and reach beyond a bar, one below and one above what a flute plays. -/
def longTones : Value Rat :=
  .object [("notes", .array [
    .object [("pitch", .number 40), ("dur_q", .number 5)],
    .object [("start_q", .number 3), ("pitch", .number 120), ("dur_q", .number 5),
      ("chan", .number 15)]])]

theorem flutist_longTones_fit : Instrument.read? flute = some flutist ∧ flutist.isDrum = false ∧
    flutist.family ≠ .strings ∧ longTones.isObject = true ∧
    ∃ part, Part.compile flutist { length := 4 } longTones = .ok part ∧
      (∀ n ∈ part.notes, n.Fits (max 0 4) flutist.range) ∧ part.notes.Pairwise Note.InOrder := by
  have hread : Instrument.read? flute = some flutist := (Option.some_get _).symm
  have hd : flutist.isDrum = false := by decide
  have hf : flutist.family ≠ .strings := by decide
  exact ⟨hread, hd, hf, rfl, Part.compile_fits hread hd (Or.inl hf) rfl⟩

end MusicPart
