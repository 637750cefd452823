import MusicPart.Proofs.Overlaps
import MusicPart.Proofs.Stages

/-!
# Accounting

Every entry of a document becomes a note or is counted under the reason why it does not, and every
note that separation leaves out is counted as a duplicate. The later stages leave out none, and only
splitting makes more.
-/

namespace MusicPart

open Json (Value)

variable {α : Type} [Quantity α]

/-! ### Taking in -/

theorem length_filterMap_add_countP_isNone {β γ : Type} (f : β → Option γ) (xs : List β) :
    (xs.filterMap f).length + xs.countP (fun x => (f x).isNone) = xs.length := by
  induction xs with
  | nil => rfl
  | cons x xs ih =>
      cases h : f x with
      | none =>
          rw [List.filterMap_cons_none h, List.countP_cons_of_pos (by simp [h]), List.length_cons]
          omega
      | some y =>
          rw [List.filterMap_cons_some h, List.countP_cons_of_neg (by simp [h]), List.length_cons,
            List.length_cons]
          omega

/-- Every entry is a note or is counted under one reason why it is none. -/
def Note.Taken.Balanced (t : Note.Taken α) : Prop :=
  t.notes.length + t.report.dropped + t.report.unknownDrums + t.report.crowded = t.report.input

namespace Note

theorem apart_append_crowding_perm (last : Option α) (notes : List (Note α)) :
    (apart last notes ++ crowding last notes).Perm notes := by
  induction notes generalizing last with
  | nil => exact .nil
  | cons n notes ih =>
      rw [apart, crowding]
      split
      · exact List.perm_middle.trans ((ih last).cons n)
      · exact (ih _).cons n

omit [Quantity α] in
theorem length_followed (notes : List (Note α)) : (followed notes).length = notes.length := by
  induction notes with
  | nil => rfl
  | cons n notes ih => rw [followed, List.length_cons, List.length_cons, ih]

theorem monophonic_length (notes : List (Note α)) :
    (monophonic notes).notes.length + (monophonic notes).report.crowded = notes.length := by
  have hkept := (apart_append_crowding_perm none (sortByPitch notes)).length_eq
  rw [List.length_append] at hkept
  rw [monophonic]
  simp only [List.length_map, length_followed]
  rw [hkept, (sortByPitch_perm notes).length_eq]

theorem takeIn_balanced (length : α) (m : Meter) (i : Instrument α) (raws : List (Value α)) :
    (takeIn length m i raws).Balanced := by
  have hread := length_filterMap_add_countP_isNone (read? m i.channel) raws
  rw [takeIn, Taken.Balanced]
  split
  · generalize raws.filterMap (read? m i.channel) = notes at hread
    have hnotes : (boundAll length i raws notes).notes.length = notes.length := by
      simp [boundAll]
    have hreport : (boundAll length i raws notes).report.crowded = 0 ∧
        (boundAll length i raws notes).report.unknownDrums = 0 ∧
        (boundAll length i raws notes).report.input = raws.length := ⟨rfl, rfl, rfl⟩
    obtain ⟨hcrowded, hunknown, hinput⟩ := hreport
    simp only
    split
    · have hmono := monophonic_length (boundAll length i raws notes).notes
      have hplain : (monophonic (boundAll length i raws notes).notes).report.dropped = 0 ∧
          (monophonic (boundAll length i raws notes).notes).report.unknownDrums = 0 ∧
          (monophonic (boundAll length i raws notes).notes).report.input = 0 := ⟨rfl, rfl, rfl⟩
      simp only [Intake.add]
      omega
    · simp only
      omega
  · simp

end Note

omit [Quantity α] in
theorem Hit.length_notes_add_counts (hits : List (Hit α)) :
    (hits.filterMap note?).length + hits.countP isUnreadable + hits.countP isUnknown =
      hits.length := by
  induction hits with
  | nil => rfl
  | cons hit hits ih =>
      rw [List.countP_cons, List.countP_cons, List.length_cons]
      cases hit with
      | unreadable =>
          change (hits.filterMap note?).length + (hits.countP isUnreadable + 1) +
            hits.countP isUnknown = hits.length + 1
          omega
      | unknown =>
          change (hits.filterMap note?).length + hits.countP isUnreadable +
            (hits.countP isUnknown + 1) = hits.length + 1
          omega
      | note n =>
          change (hits.filterMap note?).length + 1 + hits.countP isUnreadable +
            hits.countP isUnknown = hits.length + 1
          omega

theorem Hit.takeIn_balanced (length : α) (m : Meter) (i : Instrument α) (raws : List (Value α)) :
    (Hit.takeIn length m i raws).Balanced := by
  have h := length_notes_add_counts (raws.map (read length m i))
  rw [List.length_map] at h
  rw [Hit.takeIn, Note.Taken.Balanced]
  split
  · exact h
  · simp

theorem Score.takeIn_balanced (i : Instrument α) (s : Settings α) (candidate : Value α)
    (expansion : Pattern.Expansion α) : (takeIn i s candidate expansion).Balanced := by
  have hnotes := Note.takeIn_balanced s.span s.meter i
    (elementsOf "notes" candidate ++ expansion.notes)
  have hhits := Hit.takeIn_balanced s.span s.meter i (elementsOf "drums" candidate)
  rw [takeIn]
  simp only
  split
  · simp only [Note.Taken.Balanced, Intake.add, List.length_append] at *
    omega
  · exact hnotes

theorem Note.takeIn_input (length : α) (m : Meter) (i : Instrument α) (raws : List (Value α)) :
    (takeIn length m i raws).report.input = raws.length := by
  rw [takeIn]
  split
  · simp only
    split
    · rfl
    · rfl
  · rfl

theorem Hit.takeIn_input (length : α) (m : Meter) (i : Instrument α) (raws : List (Value α)) :
    (Hit.takeIn length m i raws).report.input = raws.length := by
  rw [Hit.takeIn]
  split
  · rfl
  · rfl

theorem Score.takeIn_input (i : Instrument α) (s : Settings α) (candidate : Value α)
    (expansion : Pattern.Expansion α) :
    (takeIn i s candidate expansion).report.input =
      (elementsOf "notes" candidate).length + expansion.notes.length +
        if i.isDrum then (elementsOf "drums" candidate).length else 0 := by
  rw [takeIn]
  simp only
  split
  · rw [Intake.add, Note.takeIn_input, Hit.takeIn_input, List.length_append]
  · rw [Note.takeIn_input, List.length_append, Nat.add_zero]

/-! ### Snapping and separating -/

theorem Harmony.length_moves (map : List (Harmony α)) (range : PitchRange) (previous : Option Int)
    (notes : List (Note α)) : (moves map range previous notes).length = notes.length := by
  induction notes generalizing previous with
  | nil => rfl
  | cons n notes ih => rw [moves, List.length_cons, List.length_cons, ih]

theorem Score.length_snap (i : Instrument α) (s : Settings α) (notes : List (Note α)) :
    (snap i s notes).notes.length = notes.length := by
  rw [snap]
  split
  · rfl
  · rw [Harmony.snap, List.length_zipWith, Harmony.length_moves, Nat.min_self]
    exact (Note.sort_perm notes).length_eq

namespace Note

theorem length_cutEach (notes : List (Note α)) : (cutEach notes).length = notes.length := by
  induction notes with
  | nil => rfl
  | cons n notes ih => rw [cutEach, List.length_cons, List.length_cons, ih]

theorem length_cutSonorities (groups : List (List (Note α))) :
    (cutSonorities groups).length = groups.flatten.length := by
  induction groups with
  | nil => rfl
  | cons g groups ih =>
      rw [cutSonorities, List.flatten_cons, List.length_append, List.length_append, List.length_map,
        ih]

theorem separateUnisons_length (notes : List (Note α)) :
    (separateUnisons notes).notes.length + (separateUnisons notes).report.duplicates =
      notes.length := by
  have hkept := (keepers_append_repeats_perm notes).length_eq
  rw [List.length_append] at hkept
  rw [← hkept]
  refine congrArg (· + _) ?_
  rw [separateUnisons]
  rw [(sort_perm _).length_eq, List.length_map, List.flatMap_map, List.length_flatMap,
    List.length_flatMap]
  simp only [length_cutEach]

theorem separateChords_length (notes : List (Note α)) :
    (separateChords notes).notes.length = notes.length := by
  rw [separateChords]
  rw [(sort_perm _).length_eq, List.length_map, List.length_flatMap]
  simp only [length_cutSonorities, sonorities_flatten, (sortByStart_perm _).length_eq]
  rw [← List.length_flatten, (groupsBy_flatten_perm sharesChannel notes).length_eq]

theorem separate_length (notes : List (Note α)) :
    (separate notes).notes.length + (separate notes).report.duplicates = notes.length := by
  rw [← separateUnisons_length notes]
  refine congrArg (· + _) ?_
  exact separateChords_length _

end Note

/-! ### Phrasing -/

namespace Note

theorem one_le_pieceCount (segment : α) (maxPieces : Int) (n : Note α) :
    1 ≤ pieceCount segment maxPieces n := by
  rw [pieceCount]
  generalize Json.Value.saturate (Quantity.ceil (n.duration / segment - slack)) = wanted
  have hcount := (Midi.clamp_mem wanted (le_max_left 1 maxPieces)).1
  split
  · rename_i htail
    simp only [Bool.and_eq_true, decide_eq_true_eq] at htail
    omega
  · exact hcount

theorem split_ne_nil (segment gap : α) (maxPieces : Int) (n : Note α) :
    0 < (split segment gap maxPieces n).length := by
  have hcount := one_le_pieceCount segment maxPieces n
  rw [split]
  split
  · exact Nat.one_pos
  · simp only
    split
    · exact Nat.one_pos
    · rw [List.length_map, List.length_range]
      omega

/-- If no note is split, there are as many pieces as notes. -/
theorem length_flatten_split (segment gap : α) (maxPieces : Int) (notes : List (Note α))
    (h : (notes.map (split segment gap maxPieces)).countP isSplit = 0) :
    (notes.map (split segment gap maxPieces)).flatten.length = notes.length := by
  have hone : ∀ pieces ∈ notes.map (split segment gap maxPieces), pieces.length = 1 := by
    intro pieces hpieces
    obtain ⟨n, -, rfl⟩ := List.mem_map.mp hpieces
    have hle := List.countP_eq_zero.mp h _ hpieces
    have hpos := split_ne_nil segment gap maxPieces n
    simp only [isSplit, decide_eq_true_eq] at hle
    omega
  rw [List.length_flatten, List.map_congr_left hone, List.map_const', List.sum_replicate,
    List.length_map]
  simp

theorem splitBreaths_length (s : Stamina α) (notes : List (Note α))
    (h : (splitBreaths s notes).report.breaths = 0) :
    (splitBreaths s notes).notes.length = notes.length := by
  rw [splitBreaths] at h ⊢
  split
  · rfl
  · rename_i hbreath
    rw [if_neg hbreath] at h
    exact length_flatten_split _ _ _ notes h

theorem splitBows_length (s : Stamina α) (m : Meter) (notes : List (Note α))
    (h : (splitBows s m notes).report.bows = 0) :
    (splitBows s m notes).notes.length = notes.length := by
  rw [splitBows] at h ⊢
  simp only at h ⊢
  split
  · rfl
  · rename_i hbars
    rw [if_neg hbars] at h
    rw [(sortByPitch_perm _).length_eq]
    exact length_flatten_split _ _ _ notes h

theorem phrase_length (i : Instrument α) (m : Meter) (general : Text) (arranged : Bool)
    (notes : List (Note α)) (hbreaths : (phrase i m general arranged notes).report.breaths = 0)
    (hbows : (phrase i m general arranged notes).report.bows = 0) :
    (phrase i m general arranged notes).notes.length = notes.length := by
  have hcapped : (capShort i.articulations general notes).notes.length = notes.length :=
    List.length_map _
  rw [phrase] at hbreaths hbows ⊢
  simp only at hbreaths hbows ⊢
  split at hbreaths
  · rename_i hwind
    rw [if_pos hwind, splitBreaths_length _ _ hbreaths, hcapped]
  · rename_i hwind
    rw [if_neg hwind] at hbows ⊢
    split at hbows
    · rename_i hbowed
      rw [if_pos hbowed, splitBows_length _ _ _ hbows, hcapped]
    · rename_i hbowed
      rw [if_neg hbowed, hcapped]

end Note

/-! ### Delivering -/

namespace Articulator

variable (s : Articulator α)

omit [Quantity α] in
theorem length_carry (channel : Option Int) (notes : List (Note α)) :
    (s.carry channel notes).length = notes.length := by
  induction notes generalizing channel with
  | nil => rfl
  | cons n notes ih => rw [carry, List.length_cons, List.length_cons, ih]

omit [Quantity α] in
theorem length_reroute (channel : Int) (notes : List (Note α)) :
    (if s.routesByChannel then notes.map (route channel) else notes).length = notes.length := by
  split
  · exact List.length_map _
  · rfl

omit [Quantity α] in
theorem length_byTimeline (notes : List (Note α)) (timeline : List (ArticulationChange α)) :
    (s.byTimeline notes timeline).1.length = notes.length := by
  rw [byTimeline]
  simp only
  split
  · exact s.length_reroute _ notes
  · rfl

theorem length_resolve (notes : List (Note α)) (timeline : List (ArticulationChange α))
    (general : Text) : (s.resolve notes timeline general).notes.length = notes.length := by
  have herased : (notes.map s.erase).length = notes.length := List.length_map _
  rw [resolve]
  split
  · exact (s.length_byTimeline _ timeline).trans herased
  · split
    · have hsorted := (Note.sortByStart_perm (notes.map s.erase)).length_eq.trans herased
      change List.length (if s.routesByChannel then _ else _) = _
      split
      · exact (s.length_carry none _).trans hsorted
      · exact hsorted
    · split
      · exact herased
      · split
        · exact herased
        · exact (s.length_reroute _ _).trans herased

end Articulator

/-! ### Parts -/

/-- The notes that reach phrasing are the entries of the candidate without those counted as dropped,
unknown, crowded or duplicates, and if none of them is split they are the notes of the part. -/
theorem Part.compile_accounted {i : Instrument α} {s : Settings α} {candidate : Value α}
    {part : Part α} (h : Part.compile i s candidate = .ok part) :
    part.report.intake.input = (Score.elementsOf "notes" candidate).length +
        (Pattern.expand s.meter candidate).notes.length +
        (if i.isDrum then (Score.elementsOf "drums" candidate).length else 0) ∧
      (Score.ofCandidate i s candidate).separated.notes.length + part.report.intake.dropped +
        part.report.intake.unknownDrums + part.report.intake.crowded +
        part.report.overlaps.duplicates = part.report.intake.input ∧
      (part.report.phrasing.breaths = 0 → part.report.phrasing.bows = 0 →
        part.notes.length = (Score.ofCandidate i s candidate).separated.notes.length) := by
  rw [Part.compile] at h
  split at h
  · cases h
  · split at h
    · cases h
    · cases h
      refine ⟨Score.takeIn_input i s candidate _, ?_, fun hbreaths hbows => ?_⟩
      · have htaken := Score.takeIn_balanced i s candidate (Pattern.expand s.meter candidate)
        have hsnapped := Score.length_snap i s
          (Score.takeIn i s candidate (Pattern.expand s.meter candidate)).notes
        have hseparated := Note.separate_length
          (Score.snap i s (Score.takeIn i s candidate (Pattern.expand s.meter candidate)).notes).notes
        simp only [Note.Taken.Balanced, ofScore, Score.ofCandidate] at *
        omega
      · refine (Note.sort_perm _).length_eq.trans ?_
        refine (Articulator.length_resolve _ _ _ _).trans ?_
        exact Note.phrase_length i s.meter (Score.general candidate) s.arranged _ hbreaths hbows

/-- Drums of one voice with one drum. -/
def bassDrum : Value Rat :=
  .object [("midi", .object [("polyphony", .string "mono"), ("is_drum", .bool true),
    ("drum_map", .object [("kick", .number 36)])])]

def bassDrummer : Instrument Rat := (Instrument.read? bassDrum).get (by decide)

/-- What is no note, two notes that begin together, a drum that is not there, and one hit twice. -/
def clutter : Value Rat :=
  .object [("notes", .array [.null, .object [("pitch", .number 50)], .object [("pitch", .number 52)]]),
    ("drums", .array [.object [("drum", .string "snare")],
      .object [("start_q", .number 1), ("drum", .string "kick")],
      .object [("start_q", .number 1), ("drum", .string "kick")]])]

theorem bassDrummer_clutter_accounted : Instrument.read? bassDrum = some bassDrummer ∧
    ∃ part, Part.compile bassDrummer { length := 4 } clutter = .ok part ∧
      part.report.intake.input = 6 ∧
      (Score.ofCandidate bassDrummer { length := 4 } clutter).separated.notes.length +
        part.report.intake.dropped + part.report.intake.unknownDrums + part.report.intake.crowded +
        part.report.overlaps.duplicates = 6 ∧
      (part.report.phrasing.breaths = 0 → part.report.phrasing.bows = 0 → part.notes.length =
        (Score.ofCandidate bassDrummer { length := 4 } clutter).separated.notes.length) := by
  have hpart := Part.compile_ok bassDrummer { length := 4 } (show clutter.isObject from rfl)
  obtain ⟨hinput, hnotes, hwhole⟩ := Part.compile_accounted hpart
  have hsix : (Score.elementsOf "notes" clutter).length + (Pattern.expand {} clutter).notes.length +
      (if bassDrummer.isDrum then (Score.elementsOf "drums" clutter).length else 0) = 6 := by
    decide
  exact ⟨(Option.some_get _).symm, _, hpart, hinput.trans hsix, hnotes.trans (hinput.trans hsix), hwhole⟩

end MusicPart
