import MusicPart.Part
import MusicPart.Proofs.Phrases
import MusicPart.Proofs.Routing
import MusicPart.Proofs.Separation
import MusicPart.Proofs.Taking

/-!
# Stages

Where the notes of each stage of a score come from, and what compiling a part adds to its score.
-/

namespace MusicPart

open Json (Value)
open Note (Shortens split segmentOf)

theorem Settings.span_eq (s : Settings Rat) : s.span = max 0 s.length := by
  rw [Settings.span]
  rw [Exact.greater_eq_max, Exact.zero_eq]

namespace Score

theorem takeIn_held (i : Instrument Rat) (s : Settings Rat) (candidate : Value Rat)
    (expansion : Pattern.Expansion Rat) :
    ∀ n ∈ (takeIn i s candidate expansion).notes, n.Held s.span := by
  rw [takeIn]
  simp only
  split
  · intro n hn
    rcases List.mem_append.mp hn with hn | hn
    · exact Note.takeIn_held n hn
    · exact Hit.takeIn_held _ _ _ n hn
  · exact Note.takeIn_held

theorem snap_moves {α : Type} [Quantity α] (i : Instrument α) (s : Settings α)
    (notes : List (Note α)) : ∃ before : List (Note α), before.Perm notes ∧
      List.Forall₂ (Harmony.Moves i.range) before (snap i s notes).notes := by
  unfold snap
  simp only
  split
  · exact ⟨notes, .rfl, List.forall₂_same.mpr fun n _ => ⟨rfl, Or.inl rfl⟩⟩
  · exact ⟨Note.sort notes, Note.sort_perm notes, Harmony.snap_moves _ _ notes⟩

variable {i : Instrument Rat} {s : Settings Rat} {candidate : Value Rat}

theorem mem_snapped {n : Note Rat} (hn : n ∈ (ofCandidate i s candidate).snapped.notes) :
    ∃ m ∈ (ofCandidate i s candidate).taken.notes, Harmony.Moves i.range m n := by
  obtain ⟨before, hperm, hmoves⟩ := snap_moves i s (ofCandidate i s candidate).taken.notes
  obtain ⟨m, hm, hmn⟩ := Note.exists_mem_of_forall₂ hmoves hn
  exact ⟨m, hperm.mem_iff.mp hm, hmn⟩

theorem mem_separated {n : Note Rat} (hn : n ∈ (ofCandidate i s candidate).separated.notes) :
    ∃ m ∈ (ofCandidate i s candidate).snapped.notes, Shortens m n :=
  (Note.separate_trims _).exists_mem n hn

/-- The notes that phrasing splits. -/
theorem mem_capped {n : Note Rat} (hn : n ∈ (Note.capShort i.articulations (general candidate)
      (ofCandidate i s candidate).separated.notes).notes) :
    ∃ m ∈ (ofCandidate i s candidate).separated.notes, Shortens m n :=
  (Note.capShort_trims _ _ _).exists_mem n hn

theorem capped_held : ∀ n ∈ (Note.capShort i.articulations (general candidate)
    (ofCandidate i s candidate).separated.notes).notes, n.Held s.span := by
  intro n hn
  obtain ⟨c, hc, hcn⟩ := mem_capped hn
  obtain ⟨b, hb, hbc⟩ := mem_separated hc
  obtain ⟨a, ha, hab⟩ := mem_snapped hb
  have hheld : a.Held s.span := takeIn_held i s candidate _ a ha
  exact ((hab.held hheld).shorten hbc).shorten hcn

theorem phrased_perm (i : Instrument Rat) (s : Settings Rat) (candidate : Value Rat) :
    ∃ gap, 0 ≤ gap ∧ (ofCandidate i s candidate).phrased.notes.Perm
      ((Note.capShort i.articulations (general candidate)
        (ofCandidate i s candidate).separated.notes).notes.flatMap
          (split (segmentOf i s.meter s.arranged) gap i.stamina.maxPieces)) :=
  Note.phrase_perm i s.meter _ s.arranged _

theorem delivered_routes (i : Instrument Rat) (s : Settings Rat) (candidate : Value Rat) :
    ∃ before : List (Note Rat), before.Perm (ofCandidate i s candidate).phrased.notes ∧
      List.Forall₂ (⟨i.articulations, i.channel, s.span⟩ : Articulator Rat).Routes before
        (ofCandidate i s candidate).delivered.notes :=
  Articulator.resolve_routes _ _ _ _

end Score

theorem Part.compile_of_isFinite {α : Type} [Quantity α] (i : Instrument α) {s : Settings α}
    {candidate : Value α} (hc : candidate.isObject = true)
    (hs : Quantity.isFinite s.length = true) : Part.compile i s candidate =
      .ok (Part.ofScore i s candidate (Score.ofCandidate i s candidate)) := by
  rw [Part.compile]
  rw [hc, hs]
  rfl

theorem Part.compile_eq_ofScore {α : Type} [Quantity α] {i : Instrument α} {s : Settings α}
    {candidate : Value α} {part : Part α} (h : compile i s candidate = .ok part) :
    part = ofScore i s candidate (Score.ofCandidate i s candidate) := by
  rw [compile] at h
  split at h
  · exact nomatch h
  · split at h
    · exact nomatch h
    · cases h
      rfl

theorem Part.compile_ok (i : Instrument Rat) (s : Settings Rat) {candidate : Value Rat}
    (hc : candidate.isObject = true) : Part.compile i s candidate =
      .ok (Part.ofScore i s candidate (Score.ofCandidate i s candidate)) :=
  Part.compile_of_isFinite i hc rfl

end MusicPart
