import MusicPart.Proofs.Readings
import MusicPart.Quantity.Binary64

/-!
# What readers refuse

Each array of a candidate has a reader of its own, and so has the chord map. An element that its
reader refuses leaves no trace in what is read of the whole.
-/

namespace MusicPart

open Json (Value)

variable {α : Type} [Quantity α]

/-! ### Elements that are refused -/

theorem Pattern.read?_of_not_isObject (m : Meter) {raw : Value α} (h : raw.isObject = false) :
    read? m raw = none := by
  cases raw with
  | object ms => exact nomatch h
  | _ => rfl

theorem ArticulationChange.read?_of_no_name (m : Meter) {raw : Value α}
    (h : (raw.first? ["articulation", "art", "name"]).bind Value.text? = none) :
    read? m raw = none := by
  simp only [read?, h]
  rfl

theorem ArticulationChange.read?_of_no_time {m : Meter} {raw : Value α}
    (h : Position.read? ["time_q", "start_q"] m raw = none) : read? m raw = none := by
  simp only [read?, h]
  cases (raw.first? ["articulation", "art", "name"]).bind Value.text? with
  | none => rfl
  | some name => cases name.isEmpty <;> simp

theorem Curve.read?_of_not_isObject (default : Interpolation) (m : Meter) (name : Text)
    {body : Value α} (h : body.isObject = false) : read? default m name body = none := by
  rw [read?, h]
  rfl

theorem Curve.point?_of_no_value (m : Meter) {raw : Value α}
    (h : (raw.find? "value").bind Value.numeric? = none) : point? m raw = none := by
  rw [point?]
  cases hv : raw.find? "value" with
  | none => rfl
  | some v =>
      rw [hv] at h
      have hn : v.numeric? = none := h
      simp [hn]

/-! ### Repeats -/

/-- A repeat that is skipped takes no room. -/
theorem Pattern.expandFrom_insert (m : Meter) (patterns : List (Pattern α)) {extra : Value α}
    (h : readRepeat? m patterns extra = none) (room : Nat) (before after : List (Value α)) :
    (expandFrom m patterns room (before ++ extra :: after)).notes =
      (expandFrom m patterns room (before ++ after)).notes := by
  induction before generalizing room with
  | nil =>
      rw [List.nil_append, expandFrom, h]
      rfl
  | cons raw before ih =>
      rw [List.cons_append, List.cons_append, expandFrom, expandFrom]
      cases readRepeat? m patterns raw with
      | none => exact ih room
      | some r =>
          dsimp only
          split
          · rfl
          · exact congrArg (placements m r ++ ·) (ih _)

variable {m : Meter} {extra candidate candidate' : Value α}

theorem Pattern.expand_of_gains_pattern (h : read? m extra = none)
    (hc : candidate.Gains "patterns" extra candidate') :
    expand m candidate' = expand m candidate := by
  obtain ⟨before, after, hv, rfl⟩ := hc
  have hrepeats : (candidate.set "patterns" (.array (before ++ extra :: after))).find? "repeats" =
      candidate.find? "repeats" := Value.find?_set_of_ne (by decide) _ _
  rw [expand, expand, Value.find?_set_self (Value.isObject_of_find? hv), hv, hrepeats]
  cases candidate.find? "repeats" with
  | none => rfl
  | some repeats =>
      cases repeats with
      | array repeats =>
          exact congrArg (expandFrom m · maxNotes repeats) (filterMap_insert_none h before after)
      | _ => rfl

theorem Pattern.expand_of_gains_repeat
    (h : readRepeat? m ((Score.elementsOf "patterns" candidate).filterMap (read? m)) extra = none)
    (hc : candidate.Gains "repeats" extra candidate') :
    (expand m candidate').notes = (expand m candidate).notes := by
  obtain ⟨before, after, hv, rfl⟩ := hc
  have hpatterns : (candidate.set "repeats" (.array (before ++ extra :: after))).find? "patterns" =
      candidate.find? "patterns" := Value.find?_set_of_ne (by decide) _ _
  rw [expand, expand, Value.find?_set_self (Value.isObject_of_find? hv), hv, hpatterns]
  rw [Score.elementsOf] at h
  cases hp : candidate.find? "patterns" with
  | none => rfl
  | some patterns =>
      rw [hp] at h
      cases patterns with
      | array patterns => exact expandFrom_insert m _ h maxNotes before after
      | _ => rfl

/-! ### Curves -/

theorem Curve.readAll_insert (default : Interpolation) (m : Meter) (name : Text) {body : Value α}
    (h : read? default m name body = none) (before after : List (Text × Value α)) :
    readAll default m (.object (before ++ (name, body) :: after)) =
      readAll default m (.object (before ++ after)) :=
  filterMap_insert_none (f := fun member : Text × Value α => read? default m member.1 member.2) h
    before after

theorem Curve.readAll_congr (default : Interpolation) (m : Meter) {name : Text}
    {body body' : Value α} (h : read? default m name body' = read? default m name body)
    (before after : List (Text × Value α)) :
    readAll default m (.object (before ++ (name, body') :: after)) =
      readAll default m (.object (before ++ (name, body) :: after)) := by
  simp only [readAll, Value.members, List.filterMap_append, List.filterMap_cons, h]

/-- A curve whose body gains a point that cannot be read is the same curve. -/
theorem Curve.read?_of_gains (default : Interpolation) (name : Text) {body body' : Value α}
    (h : point? m extra = none) (hb : body.Gains "breakpoints" extra body') :
    read? default m name body' = read? default m name body := by
  obtain ⟨before, after, hv, rfl⟩ := hb
  have hobj := Value.isObject_of_find? hv
  have hinterp : (body.set "breakpoints" (.array (before ++ extra :: after))).find? "interp" =
      body.find? "interp" := Value.find?_set_of_ne (by decide) _ _
  rw [read?, read?, hobj, Value.isObject_set hobj, Value.find?_set_self hobj, hv, hinterp]
  simp only [Option.map_some, Option.getD_some, Value.elements, filterMap_insert_none h]

/-! ### One element more -/

/-- One element more, which its reader refuses, in the candidate or in the chord map. A repeat is
read with the patterns that are known. -/
inductive Part.Blemish (i : Instrument α) (s : Settings α) (candidate : Value α) :
    Value α → Value α → Prop
  | note {extra candidate' : Value α} (h : Note.read? s.meter i.channel extra = none)
      (hc : candidate.Gains "notes" extra candidate') : Blemish i s candidate s.chordMap candidate'
  | hit {extra candidate' : Value α} (h : (Hit.read s.span s.meter i extra).note? = none)
      (hc : candidate.Gains "drums" extra candidate') : Blemish i s candidate s.chordMap candidate'
  | pattern {extra candidate' : Value α} (h : Pattern.read? s.meter extra = none)
      (hc : candidate.Gains "patterns" extra candidate') :
      Blemish i s candidate s.chordMap candidate'
  | repetition {extra candidate' : Value α}
      (h : Pattern.readRepeat? s.meter
        ((Score.elementsOf "patterns" candidate).filterMap (Pattern.read? s.meter)) extra = none)
      (hc : candidate.Gains "repeats" extra candidate') :
      Blemish i s candidate s.chordMap candidate'
  | change {extra candidate' : Value α} (h : ArticulationChange.read? s.meter extra = none)
      (hc : candidate.Gains "articulation_changes" extra candidate') :
      Blemish i s candidate s.chordMap candidate'
  | curve {name : Text} {extra : Value α} {before after : List (Text × Value α)}
      (h : extra.isObject = false)
      (hc : candidate.find? "curves" = some (.object (before ++ after))) :
      Blemish i s candidate s.chordMap
        (candidate.set "curves" (.object (before ++ (name, extra) :: after)))
  | point {name : Text} {body body' extra : Value α} {before after : List (Text × Value α)}
      (h : Curve.point? s.meter extra = none)
      (hc : candidate.find? "curves" = some (.object (before ++ (name, body) :: after)))
      (hb : body.Gains "breakpoints" extra body') :
      Blemish i s candidate s.chordMap
        (candidate.set "curves" (.object (before ++ (name, body') :: after)))
  | marker {extra candidate' : Value α} (h : TempoMarker.read? s.span extra = none)
      (hc : candidate.Gains "tempo_markers" extra candidate') :
      Blemish i s candidate s.chordMap candidate'
  | harmony {extra : Value α} {before after : List (Value α)}
      (h : Harmony.read? s.meter extra = none) (hm : s.chordMap = .array (before ++ after)) :
      Blemish i s candidate (.array (before ++ extra :: after)) candidate

variable {i : Instrument α} {s : Settings α} {map : Value α}

theorem Part.Blemish.reading_eq (h : Part.Blemish i s candidate map candidate') :
    Reading.ofCandidate i { s with chordMap := map } candidate' =
      Reading.ofCandidate i s candidate := by
  cases h
  case note h hc | change h hc | marker h hc =>
    have hread := hc.filterMap h
    obtain ⟨before, after, -, rfl⟩ := hc
    simp (disch := decide) [Reading.ofCandidate, Reading.notesOf, Reading.hitsOf, hread]
  case hit h hc =>
    have hread := hc.filterMap (f := fun raw => (Hit.read s.span s.meter i raw).note?) h
    obtain ⟨before, after, -, rfl⟩ := hc
    simp (disch := decide) [Reading.ofCandidate, Reading.notesOf, Reading.hitsOf, hread]
  case pattern h hc =>
    have hexpand := Pattern.expand_of_gains_pattern h hc
    obtain ⟨before, after, -, rfl⟩ := hc
    simp (disch := decide) [Reading.ofCandidate, Reading.notesOf, Reading.hitsOf, hexpand]
  case repetition h hc =>
    have hexpand := Pattern.expand_of_gains_repeat h hc
    obtain ⟨before, after, -, rfl⟩ := hc
    simp (disch := decide) [Reading.ofCandidate, Reading.notesOf, Reading.hitsOf, hexpand]
  case curve name extra before after h hc =>
    have hread := Curve.readAll_insert i.controllers.smoothing.interpolation s.meter name
      (Curve.read?_of_not_isObject _ _ name h) before after
    simp (disch := decide) [Reading.ofCandidate, Reading.notesOf, Reading.hitsOf,
      Part.member_set_self hc, Part.member_of_find? hc, hread]
  case point name body body' extra before after h hc hb =>
    have hread := Curve.readAll_congr i.controllers.smoothing.interpolation s.meter
      (Curve.read?_of_gains _ name h hb) before after
    simp (disch := decide) [Reading.ofCandidate, Reading.notesOf, Reading.hitsOf,
      Part.member_set_self hc, Part.member_of_find? hc, hread]
  case harmony extra before after h hm =>
    have hread := filterMap_insert_none h before after
    simp only [Reading.ofCandidate, hm, Value.elements, hread]
    rfl

theorem Part.Blemish.isObject_eq (h : Part.Blemish i s candidate map candidate') :
    candidate'.isObject = candidate.isObject := by
  cases h
  case note h hc | hit h hc | pattern h hc | repetition h hc | change h hc | marker h hc =>
    rw [hc.isObject.1, hc.isObject.2]
  case curve h hc =>
    rw [Value.isObject_of_find? hc, Value.isObject_set (Value.isObject_of_find? hc)]
  case point h hc hb =>
    rw [Value.isObject_of_find? hc, Value.isObject_set (Value.isObject_of_find? hc)]
  case harmony => rfl

def loneTone : Value Float :=
  .object [("notes", .array [.object [("pitch", .number 60), ("dur_q", .number 2)]])]

/-- The same tone after a text that is no note. -/
def annotatedTone : Value Float :=
  loneTone.set "notes"
    (.array [.string "C4", .object [("pitch", .number 60), ("dur_q", .number 2)]])

def fourQuarters : Settings Float := { length := 4 }

end MusicPart
