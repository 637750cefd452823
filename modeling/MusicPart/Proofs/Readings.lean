import MusicPart.Part.Bundle
import MusicPart.Proofs.Taking

/-!
# What is read of a candidate

A bundle depends on its candidate and chord map only through what the readers accept of them. What
they refuse is counted in the report and nowhere else, so one element more that its reader refuses
leaves the bundle as it is, wherever it stands.
-/

namespace MusicPart

open Json (Value)

variable {α : Type}

/-! ### Members -/

namespace Json.Value

theorem lookup_cons (key : Text) (m : Text × Value α) (ms : List (Text × Value α)) :
    lookup key (m :: ms) = if m.1 == key then some m.2 else lookup key ms := by
  rw [lookup, List.find?_cons]
  cases m.1 == key <;> rfl

theorem lookup_insert_self (key : Text) (v : Value α) (ms : List (Text × Value α)) :
    lookup key (insert key v ms) = some v := by
  induction ms with
  | nil => simp [insert, lookup_cons]
  | cons m ms ih =>
      rw [insert]
      by_cases hm : (m.1 == key) = true
      · simp [hm, lookup_cons]
      · simp [hm, lookup_cons, ih]

theorem lookup_insert_of_ne {key other : Text} (h : other ≠ key) (v : Value α)
    (ms : List (Text × Value α)) : lookup other (insert key v ms) = lookup other ms := by
  induction ms with
  | nil => simp [insert, lookup, h.symm]
  | cons m ms ih =>
      rw [insert]
      by_cases hm : (m.1 == key) = true
      · rw [if_pos hm, lookup_cons, lookup_cons, eq_of_beq hm]
        simp [h.symm]
      · rw [if_neg hm, lookup_cons, lookup_cons, ih]

@[simp]
theorem find?_set_of_ne {key other : Text} (h : other ≠ key) (v new : Value α) :
    (v.set key new).find? other = v.find? other := by
  cases v with
  | null => simp [set, find?, members, lookup, h.symm]
  | object ms => exact lookup_insert_of_ne h new ms
  | _ => rfl

theorem find?_set_self {v : Value α} (h : v.isObject = true) (key : Text) (new : Value α) :
    (v.set key new).find? key = some new := by
  cases v with
  | object ms => exact lookup_insert_self key new ms
  | _ => exact nomatch h

theorem isObject_of_find? {v w : Value α} {key : Text} (h : v.find? key = some w) :
    v.isObject = true := by
  cases v with
  | object ms => rfl
  | _ => exact nomatch h

theorem isObject_set {v : Value α} (h : v.isObject = true) (key : Text) (new : Value α) :
    (v.set key new).isObject = true := by
  cases v with
  | object ms => rfl
  | _ => exact nomatch h

/-- The second object is the first one with one element more somewhere in the array under a key. -/
def Gains (v : Value α) (key : Text) (extra : Value α) (w : Value α) : Prop :=
  ∃ before after : List (Value α), v.find? key = some (.array (before ++ after)) ∧
    w = v.set key (.array (before ++ extra :: after))

theorem Gains.isObject {v w extra : Value α} {key : Text} (h : v.Gains key extra w) :
    v.isObject = true ∧ w.isObject = true := by
  obtain ⟨before, after, hv, rfl⟩ := h
  exact ⟨isObject_of_find? hv, isObject_set (isObject_of_find? hv) _ _⟩

end Json.Value

theorem filterMap_insert_none {β γ : Type} {f : β → Option γ} {extra : β} (h : f extra = none)
    (before after : List β) :
    (before ++ extra :: after).filterMap f = (before ++ after).filterMap f := by
  rw [List.filterMap_append, List.filterMap_cons_none h, List.filterMap_append]

/-! ### Another value under a key -/

section Set

variable {key other : Text} (h : other ≠ key) (v new : Value α)

include h

@[simp]
theorem Json.Value.present?_set_of_ne : (v.set key new).present? other = v.present? other := by
  rw [present?, present?, find?_set_of_ne h]

@[simp]
theorem Score.elementsOf_set_of_ne : elementsOf other (v.set key new) = elementsOf other v := by
  rw [elementsOf, elementsOf, Value.find?_set_of_ne h]

@[simp]
theorem Part.member_set_of_ne : member (v.set key new) other = member v other := by
  rw [member, member, Value.find?_set_of_ne h]

end Set

theorem Part.member_set_self {v w : Value α} {key : Text} (h : v.find? key = some w)
    (new : Value α) : member (v.set key new) key = new := by
  rw [member, Value.find?_set_self (Value.isObject_of_find? h)]
  rfl

theorem Part.member_of_find? {v w : Value α} {key : Text} (h : v.find? key = some w) :
    member v key = w := by
  rw [member, h]
  rfl

@[simp]
theorem Score.general_set_of_ne {key : Text} (h : Text.ofString "articulation" ≠ key)
    (v new : Value α) : general (v.set key new) = general v := by
  rw [general, general, Value.find?_set_of_ne h]

/-- A reader that refuses the element reads the same from both arrays. -/
theorem Json.Value.Gains.filterMap {v w extra : Value α} {key : Text} (h : v.Gains key extra w)
    {β : Type} {f : Value α → Option β} (hf : f extra = none) :
    (Score.elementsOf key w).filterMap f = (Score.elementsOf key v).filterMap f := by
  obtain ⟨before, after, hv, rfl⟩ := h
  rw [Score.elementsOf, Score.elementsOf, find?_set_self (isObject_of_find? hv), hv]
  exact filterMap_insert_none hf before after

theorem Part.elements_member (candidate : Value α) (key : Text) :
    (Part.member candidate key).elements = Score.elementsOf key candidate := by
  rw [Part.member, Score.elementsOf]
  cases candidate.find? key <;> rfl

variable [Quantity α]

@[simp]
theorem Pattern.expand_set_of_ne {key : Text} (hp : Text.ofString "patterns" ≠ key)
    (hr : Text.ofString "repeats" ≠ key) (m : Meter) (v new : Value α) :
    expand m (v.set key new) = expand m v := by
  rw [expand, expand, Value.find?_set_of_ne hp, Value.find?_set_of_ne hr]

/-! ### Readings -/

/-- What the readers accept of a candidate and of the chord map that it comes with. -/
structure Reading (α : Type) where
  notes : List (Note α)
  hits : List (Note α)
  harmonies : List (Harmony α)
  changes : List (ArticulationChange α)
  general : Text
  curves : List (Curve α)
  markers : List (TempoMarker α)
  generationType : Value α
  generationStyle : Value α
  handoff : Option (Value α)

namespace Reading

/-- The notes that are read, those that patterns place included. -/
def notesOf (i : Instrument α) (s : Settings α) (candidate : Value α) : List (Note α) :=
  (Score.elementsOf "notes" candidate).filterMap (Note.read? s.meter i.channel) ++
    (Pattern.expand s.meter candidate).notes.filterMap (Note.read? s.meter i.channel)

def hitsOf (i : Instrument α) (s : Settings α) (candidate : Value α) : List (Note α) :=
  (Score.elementsOf "drums" candidate).filterMap fun raw => (Hit.read s.span s.meter i raw).note?

def ofCandidate (i : Instrument α) (s : Settings α) (candidate : Value α) : Reading α where
  notes := notesOf i s candidate
  hits := hitsOf i s candidate
  harmonies := s.chordMap.elements.filterMap (Harmony.read? s.meter)
  changes := (Score.elementsOf "articulation_changes" candidate).filterMap
    (ArticulationChange.read? s.meter)
  general := Score.general candidate
  curves := Curve.readAll i.controllers.smoothing.interpolation s.meter
    (Part.member candidate "curves")
  markers := (Score.elementsOf "tempo_markers" candidate).filterMap (TempoMarker.read? s.span)
  generationType := Part.member candidate "generation_type"
  generationStyle := Part.member candidate "generation_style"
  handoff := candidate.present? "handoff"

/-- The notes that are taken in. -/
def taken (i : Instrument α) (s : Settings α) (r : Reading α) : List (Note α) :=
  if Note.shortest ≤ s.span then
    let bounded := r.notes.map (Note.bound s.span i)
    let notes := if i.mono then (Note.monophonic bounded).notes else bounded
    if i.isDrum then notes ++ r.hits else notes
  else []

/-- The notes snapped to the harmonies, unless there are none or the part is one of drums. -/
def snapped (i : Instrument α) (s : Settings α) (r : Reading α) : Harmony.Snapped α :=
  let map := Harmony.sort r.harmonies
  if i.isDrum || map.isEmpty then ⟨r.taken i s, 0, 0⟩
  else Harmony.snap map i.range (r.taken i s)

end Reading

/-! ### From a reading to a part -/

theorem Note.takeIn_notes (length : α) (m : Meter) (i : Instrument α) (raws : List (Value α)) :
    (takeIn length m i raws).notes =
      if shortest ≤ length then
        let bounded := (raws.filterMap (read? m i.channel)).map (bound length i)
        if i.mono then (monophonic bounded).notes else bounded
      else [] := by
  rw [takeIn]
  split
  · dsimp only
    split <;> rw [boundAll_notes]
  · rfl

theorem Hit.takeIn_notes (length : α) (m : Meter) (i : Instrument α) (raws : List (Value α)) :
    (takeIn length m i raws).notes =
      if Note.shortest ≤ length then raws.filterMap fun raw => (read length m i raw).note?
      else [] := by
  rw [takeIn]
  split
  · exact List.filterMap_map
  · rfl

theorem Score.taken_notes (i : Instrument α) (s : Settings α) (candidate : Value α) :
    (ofCandidate i s candidate).taken.notes = (Reading.ofCandidate i s candidate).taken i s := by
  change (takeIn i s candidate (Pattern.expand s.meter candidate)).notes = _
  have hnotes : (elementsOf "notes" candidate ++ (Pattern.expand s.meter candidate).notes).filterMap
      (Note.read? s.meter i.channel) = Reading.notesOf i s candidate := List.filterMap_append
  rw [takeIn, Reading.taken]
  dsimp only
  by_cases hlong : Note.shortest ≤ s.span
  · by_cases hdrum : i.isDrum = true
    · simp only [hdrum, hlong, if_true, Note.takeIn_notes, Hit.takeIn_notes, hnotes]
      rfl
    · simp only [hdrum, hlong, if_true, if_false, Bool.false_eq_true, Note.takeIn_notes, hnotes]
      rfl
  · by_cases hdrum : i.isDrum = true
    · simp only [hdrum, hlong, if_true, if_false, Note.takeIn_notes, Hit.takeIn_notes,
        List.append_nil]
    · simp only [hdrum, hlong, if_false, Bool.false_eq_true, Note.takeIn_notes]

theorem Score.separated_eq (i : Instrument α) (s : Settings α) (candidate : Value α) :
    (ofCandidate i s candidate).separated =
      Note.separate ((Reading.ofCandidate i s candidate).snapped i s).notes := by
  rw [Reading.snapped]
  rw [← taken_notes]
  rfl

theorem Score.timeline_eq (i : Instrument α) (s : Settings α) (candidate : Value α) :
    (ofCandidate i s candidate).timeline =
      ArticulationChange.sort (Reading.ofCandidate i s candidate).changes := by
  change ArticulationChange.readAll s.meter (Part.member candidate "articulation_changes") = _
  rw [ArticulationChange.readAll, Part.elements_member]
  rfl

theorem Part.markersOf_eq (s : Settings α) (candidate : Value α) :
    (markersOf s candidate).markers =
      if s.keepsTempo then TempoMarker.thin TempoMarker.maxMarkers none (TempoMarker.sort
        ((Score.elementsOf "tempo_markers" candidate).filterMap (TempoMarker.read? s.span)))
      else [] := by
  rw [markersOf]
  split
  · rw [TempoMarker.normalize, elements_member]
  · rfl

variable {i : Instrument α} {s : Settings α} {map candidate candidate' : Value α}

/-- If the notes are the same once they are separated, and all that does not go into them is read
the same, then the parts differ in their reports only. -/
theorem Part.ofScore_congr {notes hits : List (Note α)} {harmonies : List (Harmony α)}
    (hread : Reading.ofCandidate i { s with chordMap := map } candidate' =
      { Reading.ofCandidate i s candidate with notes, hits, harmonies })
    (hnotes : (Score.ofCandidate i { s with chordMap := map } candidate').separated.notes =
      (Score.ofCandidate i s candidate).separated.notes) :
    ∃ r, ofScore i { s with chordMap := map } candidate'
        (Score.ofCandidate i { s with chordMap := map } candidate') =
      { ofScore i s candidate (Score.ofCandidate i s candidate) with report := r } := by
  have hgeneral : Score.general candidate' = Score.general candidate :=
    congrArg Reading.general hread
  have htimeline : (Score.ofCandidate i { s with chordMap := map } candidate').timeline =
      (Score.ofCandidate i s candidate).timeline := by
    rw [Score.timeline_eq, Score.timeline_eq, hread]
  have hdelivered : (Score.ofCandidate i { s with chordMap := map } candidate').delivered =
      (Score.ofCandidate i s candidate).delivered := by
    change Score.deliver i s (Note.phrase i s.meter (Score.general candidate') s.arranged
      (Score.ofCandidate i { s with chordMap := map } candidate').separated.notes).notes
        (Score.ofCandidate i { s with chordMap := map } candidate').timeline
          (Score.general candidate') = _
    rw [hnotes, htimeline, hgeneral]
    rfl
  have hcurves (played : List (Note α)) :
      curves i { s with chordMap := map } candidate' played = curves i s candidate played := by
    have h : Curve.readAll i.controllers.smoothing.interpolation s.meter
        (member candidate' "curves") = Curve.readAll i.controllers.smoothing.interpolation s.meter
          (member candidate "curves") := congrArg Reading.curves hread
    rw [curves, curves]
    rw [h]
    rfl
  have hmarkers : (markersOf { s with chordMap := map } candidate').markers =
      (markersOf s candidate).markers := by
    have h : (Score.elementsOf "tempo_markers" candidate').filterMap (TempoMarker.read? s.span) =
        (Score.elementsOf "tempo_markers" candidate).filterMap (TempoMarker.read? s.span) :=
      congrArg Reading.markers hread
    rw [markersOf_eq, markersOf_eq]
    exact congrArg (fun ms => if s.keepsTempo then TempoMarker.thin TempoMarker.maxMarkers none
      (TempoMarker.sort ms) else []) h
  have hhandoff (played : List (Note α)) : handoffOf { s with chordMap := map } candidate' played =
      handoffOf s candidate played := by
    have h : candidate'.present? "handoff" = candidate.present? "handoff" :=
      congrArg Reading.handoff hread
    rw [handoffOf, handoffOf]
    rw [h]
    rfl
  have htype : member candidate' "generation_type" = member candidate "generation_type" :=
    congrArg Reading.generationType hread
  have hstyle : member candidate' "generation_style" = member candidate "generation_style" :=
    congrArg Reading.generationStyle hread
  refine ⟨(ofScore i { s with chordMap := map } candidate'
    (Score.ofCandidate i { s with chordMap := map } candidate')).report, ?_⟩
  simp only [ofScore, hdelivered, hcurves, hmarkers, hhandoff, htype, hstyle, htimeline]
  rfl

/-- Parts that differ in their reports only are written alike. -/
theorem Part.compile_render_congr (hc : candidate'.isObject = candidate.isObject)
    (h : ∃ r, ofScore i { s with chordMap := map } candidate'
        (Score.ofCandidate i { s with chordMap := map } candidate') =
      { ofScore i s candidate (Score.ofCandidate i s candidate) with report := r }) (indent : Int) :
    (compile i { s with chordMap := map } candidate').map (fun p => p.bundle.render indent) =
      (compile i s candidate).map (fun p => p.bundle.render indent) := by
  obtain ⟨r, hr⟩ := h
  rw [compile, compile, hc, hr]
  cases candidate.isObject with
  | false => rfl
  | true => cases Quantity.isFinite s.length <;> simp [Except.map, bundle, eventMembers]

end MusicPart
