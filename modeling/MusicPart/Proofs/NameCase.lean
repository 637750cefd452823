import MusicPart.Proofs.Spelling
import MusicPart.Proofs.Stages

/-!
# The case of letters in names

Patterns of two spellings are expanded to notes of two spellings, so a candidate compiles to one part
up to the case of letters in articulations, whatever the spelling of its names.
-/

namespace MusicPart

open Json (Value)
open Json.Value (NoteRespelled PatternRespelled DrumRespelled ChangeRespelled CandidateRespelled
  find?_eq_of_not_mem first?_eq_of_not_mem)

variable {α : Type} [Quantity α] {v w : Value α}

/-! ### Patterns -/

namespace Pattern

theorem end?_respelled (h : NoteRespelled v w) (m : Meter) : end? m v = end? m w := by
  rw [end?, end?, h.isObject_eq, Note.onset?_respelled h, first?_eq_of_not_mem h (by decide)]

/-- Two patterns that differ in the case of letters in their notes' tags only. -/
structure Alike (a b : Pattern α) : Prop where
  id : a.id = b.id
  notes : List.Forall₂ NoteRespelled a.notes b.notes
  length : a.length = b.length

omit [Quantity α] in
theorem Alike.refl (a : Pattern α) : Alike a a :=
  ⟨rfl, List.forall₂_same.mpr fun v _ => .refl v, rfl⟩

omit [Quantity α] in
theorem find?_notes_rel (h : PatternRespelled v w) :
    Option.Rel (Json.Value.Elementwise NoteRespelled) (v.find? "notes") (w.find? "notes") :=
  h.find?_rel (Json.Value.under_refl .refl "notes")

omit [Quantity α] in
theorem notesOf_respelled (h : PatternRespelled v w) :
    List.Forall₂ NoteRespelled (notesOf v) (notesOf w) :=
  Json.Value.elements_rel .refl (find?_notes_rel h)

theorem lengthOf_respelled (h : PatternRespelled v w) (m : Meter) :
    lengthOf m v = lengthOf m w := by
  have hends : (notesOf v).filterMap (end? m) = (notesOf w).filterMap (end? m) :=
    Json.Value.filterMap_eq_of_forall₂ (r := NoteRespelled) (fun _ _ h => end?_respelled h m)
      (notesOf_respelled h)
  have hlength : v.find? "length_q" = w.find? "length_q" := find?_eq_of_not_mem h (by decide)
  have hbars : v.find? "length_bars" = w.find? "length_bars" := find?_eq_of_not_mem h (by decide)
  rw [lengthOf, lengthOf, hlength, hbars, hends]

theorem read?_respelled (h : PatternRespelled v w) (m : Meter) :
    Option.Rel Alike (read? m v) (read? m w) := by
  have hnotes := find?_notes_rel h
  have hid : v.find? "id" = w.find? "id" := find?_eq_of_not_mem h (by decide)
  rw [read?, read?, hid, lengthOf_respelled h]
  generalize v.find? "notes" = o at hnotes ⊢
  generalize w.find? "notes" = p at hnotes ⊢
  have hread {ns os : List (Value α)} (h : List.Forall₂ NoteRespelled ns os) (id : Text)
      (length : α) : Option.Rel Alike (if id.isEmpty then none else some ⟨id, ns, length⟩)
        (if id.isEmpty then none else some ⟨id, os, length⟩) := by
    split
    · exact .none
    · exact .some ⟨rfl, h, rfl⟩
  cases hnotes with
  | none => exact .none
  | some hnotes =>
      cases hnotes with
      | array hnotes => exact hread hnotes _ _
      | refl v => exact Json.Value.rel_refl Alike.refl _

/-- Two repeats of patterns that differ in the case of letters in their notes' tags only. -/
structure RepeatAlike (a b : Repeat α) : Prop where
  pattern : Alike a.pattern b.pattern
  start : a.start = b.start
  step : a.step = b.step
  count : a.count = b.count
  held : a.held = b.held

theorem readRepeat?_alike {ps qs : List (Pattern α)} (h : List.Forall₂ Alike ps qs) (m : Meter)
    (raw : Value α) : Option.Rel RepeatAlike (readRepeat? m ps raw) (readRepeat? m qs raw) := by
  have hfind : Option.Rel Alike (ps.find? (·.id == idOf (raw.find? "pattern")))
      (qs.find? (·.id == idOf (raw.find? "pattern"))) := by
    induction h with
    | nil => exact .none
    | cons hpq _ ih =>
        rw [List.find?_cons, List.find?_cons, hpq.id]
        split
        · exact .some hpq
        · exact ih
  simp only [readRepeat?, Option.bind_eq_bind]
  split
  · exact .none
  · generalize ps.find? (·.id == idOf (raw.find? "pattern")) = o at hfind ⊢
    generalize qs.find? (·.id == idOf (raw.find? "pattern")) = p at hfind ⊢
    cases hfind with
    | none => exact .none
    | some hpq =>
        rw [Option.bind_some, Option.bind_some, hpq.length]
        cases raw.first? ["times", "count"] with
        | none => exact .none
        | some v =>
            rw [Option.bind_some, Option.bind_some]
            cases v.numeric? with
            | none => exact .none
            | some times =>
                rw [Option.bind_some, Option.bind_some]
                split
                · exact .none
                · exact .some ⟨hpq, rfl, rfl, rfl, rfl⟩

omit [Quantity α] in
theorem place_respelled (h : NoteRespelled v w) (start : α) :
    NoteRespelled (place v start) (place w start) := by
  cases h with
  | refl v => exact .refl _
  | object h =>
      refine .object (List.rel_append (List.rel_filter (fun m n hmn => ?_) h)
        (List.forall₂_same.mpr fun m _ => ⟨rfl, Json.Value.under_refl .refl _ _⟩))
      dsimp only
      rw [hmn.1]

theorem placeAt_respelled (h : NoteRespelled v w) (m : Meter) (offset : α) :
    NoteRespelled (placeAt m offset v) (placeAt m offset w) := by
  rw [placeAt, placeAt, Note.onset?_respelled h]
  exact place_respelled h _

theorem placements_alike {r q : Repeat α} (h : RepeatAlike r q) (m : Meter) :
    List.Forall₂ NoteRespelled (placements m r) (placements m q) := by
  have hobject : List.Forall₂ NoteRespelled (r.pattern.notes.filter Value.isObject)
      (q.pattern.notes.filter Value.isObject) :=
    List.rel_filter (fun _ _ h => Eq.to_iff (congrArg (· = true) h.isObject_eq)) h.pattern.notes
  rw [placements, placements, h.start, h.step, h.count]
  refine List.rel_flatMap (List.forall₂_same.mpr fun _ _ => rfl) ?_
  rintro k _ rfl
  exact List.rel_map (R := NoteRespelled) (fun _ _ h => placeAt_respelled h m _) hobject

/-- Two expansions whose notes differ in the case of letters in their tags only. -/
structure Expansion.Alike (a b : Expansion α) : Prop where
  notes : List.Forall₂ NoteRespelled a.notes b.notes
  skipped : a.skipped = b.skipped
  truncated : a.truncated = b.truncated

omit [Quantity α] in
theorem Expansion.Alike.refl (e : Expansion α) : Expansion.Alike e e :=
  ⟨List.forall₂_same.mpr fun v _ => .refl v, rfl, rfl⟩

theorem expandFrom_alike {ps qs : List (Pattern α)} (h : List.Forall₂ Alike ps qs) (m : Meter)
    (room : Nat) (raws : List (Value α)) :
    Expansion.Alike (expandFrom m ps room raws) (expandFrom m qs room raws) := by
  induction raws generalizing room with
  | nil => exact ⟨.nil, rfl, rfl⟩
  | cons raw raws ih =>
      have hrepeat := readRepeat?_alike h m raw
      rw [expandFrom, expandFrom]
      generalize readRepeat? m ps raw = o at hrepeat ⊢
      generalize readRepeat? m qs raw = p at hrepeat ⊢
      cases hrepeat with
      | none => exact ⟨(ih room).notes, congrArg (· + 1) (ih room).skipped, (ih room).truncated⟩
      | @some r q hrq =>
          have hplaced := placements_alike hrq m
          dsimp only
          rw [hplaced.length_eq]
          split
          · exact ⟨List.forall₂_take _ hplaced, rfl, rfl⟩
          · have hrest := ih (room - (placements m q).length)
            exact ⟨List.rel_append hplaced hrest.notes, hrest.skipped, by
              rw [hrq.held, hrest.truncated]⟩

end Pattern

/-! ### Candidates -/

theorem Pattern.expand_respelled (h : CandidateRespelled v w) (m : Meter) :
    Expansion.Alike (expand m v) (expand m w) := by
  have hpatterns := h.patterns_rel
  have hrepeats : v.find? "repeats" = w.find? "repeats" := h.find?_eq_of_other (by decide)
  rw [expand, expand, hrepeats]
  generalize v.find? "patterns" = o at hpatterns ⊢
  generalize w.find? "patterns" = p at hpatterns ⊢
  cases hpatterns with
  | none => exact .refl {}
  | some hpatterns =>
      cases hpatterns with
      | refl => exact .refl _
      | array hpatterns =>
          cases w.find? "repeats" with
          | none => exact .refl {}
          | some raws =>
              cases raws with
              | array raws =>
                  exact expandFrom_alike
                    (List.rel_filterMap (fun _ _ h => read?_respelled h m) hpatterns) m _ raws
              | _ => exact .refl {}

/-! ### Intake -/

namespace Note

def Taken.lowered (t : Taken α) : Taken α := { t with notes := t.notes.map Note.lowered }

theorem map_lowered_filterMap {raws others : List (Value α)}
    (h : List.Forall₂ NoteRespelled raws others) (m : Meter) (channel : Int) :
    (raws.filterMap (read? m channel)).map lowered =
      (others.filterMap (read? m channel)).map lowered := by
  rw [List.map_filterMap, List.map_filterMap]
  exact Json.Value.filterMap_eq_of_forall₂ (r := NoteRespelled)
    (fun _ _ h => read?_respelled h m channel) h

theorem boundAll_respelled {raws others : List (Value α)}
    (h : List.Forall₂ NoteRespelled raws others) (length : α) (m : Meter) (i : Instrument α) :
    (boundAll length i raws (raws.filterMap (read? m i.channel))).lowered =
      (boundAll length i others (others.filterMap (read? m i.channel))).lowered := by
  have hlength (notes : List (Note α)) :
      boundAll length i raws notes = boundAll length i others notes := by
    rw [boundAll, boundAll, h.length_eq]
  calc
    _ = boundAll length i raws ((raws.filterMap (read? m i.channel)).map lowered) :=
        (boundAll_retag ..).symm
    _ = boundAll length i others ((others.filterMap (read? m i.channel)).map lowered) := by
        rw [hlength, map_lowered_filterMap h]
    _ = _ := boundAll_retag ..

theorem countP_dropped_respelled {raws others : List (Value α)}
    (h : List.Forall₂ NoteRespelled raws others) (m : Meter) (channel : Int) :
    (raws.countP fun raw => (read? m channel raw).isNone) =
      others.countP fun raw => (read? m channel raw).isNone := by
  induction h with
  | nil => rfl
  | @cons v w vs ws hvw _ ih =>
      have hread : (read? m channel v).isNone = (read? m channel w).isNone := by
        rw [← Option.isNone_map (f := lowered), read?_respelled hvw, Option.isNone_map]
      rw [List.countP_cons, List.countP_cons, ih, hread]

theorem takeIn_respelled {raws others : List (Value α)}
    (h : List.Forall₂ NoteRespelled raws others) (length : α) (m : Meter) (i : Instrument α) :
    (takeIn length m i raws).lowered = (takeIn length m i others).lowered := by
  have hbound := boundAll_respelled h length m i
  have hdropped := countP_dropped_respelled h m i.channel
  rw [takeIn, takeIn]
  dsimp only
  generalize boundAll length i raws (raws.filterMap (read? m i.channel)) = a at hbound ⊢
  generalize boundAll length i others (others.filterMap (read? m i.channel)) = b at hbound ⊢
  obtain ⟨hnotes, hreport⟩ := Taken.mk.inj hbound
  have hmono : (monophonic a.notes).lowered = (monophonic b.notes).lowered := by
    rw [Taken.lowered, ← monophonic_retag, hnotes, monophonic_retag]
    rfl
  obtain ⟨hmonoNotes, hmonoReport⟩ := Taken.mk.inj hmono
  rw [hdropped, hreport, h.length_eq]
  split
  · split
    · rw [Taken.lowered, hmonoNotes, hmonoReport]
      rfl
    · rw [Taken.lowered, hnotes]
      rfl
  · rfl

end Note

theorem Hit.takeIn_respelled {raws others : List (Value α)}
    (h : List.Forall₂ DrumRespelled raws others) (length : α) (m : Meter) (i : Instrument α) :
    takeIn length m i raws = takeIn length m i others := by
  have hhits : raws.map (read length m i) = others.map (read length m i) := by
    induction h with
    | nil => rfl
    | cons hvw _ ih => rw [List.map_cons, List.map_cons, read_respelled hvw, ih]
  rw [takeIn, takeIn, hhits, h.length_eq]

theorem ArticulationChange.readAll_respelled (h : CandidateRespelled v w) (m : Meter) :
    (readAll m ((v.find? "articulation_changes").getD .null)).map lowered =
      (readAll m ((w.find? "articulation_changes").getD .null)).map lowered := by
  have hchanges := Json.Value.elements_rel .refl h.changes_rel
  have helements (o : Option (Value α)) :
      (o.getD .null).elements = (o.map Value.elements).getD [] := by
    cases o <;> rfl
  have hsort (cs : List (ArticulationChange α)) : (sort cs).map lowered = sort (cs.map lowered) :=
    List.map_mergeSort fun _ _ _ _ => rfl
  rw [readAll, readAll, hsort, hsort, List.map_filterMap, List.map_filterMap, helements, helements]
  congr 1
  exact Json.Value.filterMap_eq_of_forall₂ (r := ChangeRespelled)
    (fun _ _ h => read?_respelled h m) hchanges

/-! ### Scores -/

def Harmony.Snapped.lowered (a : Harmony.Snapped α) : Harmony.Snapped α :=
  { a with notes := a.notes.map Note.lowered }

def Note.Separated.lowered (a : Note.Separated α) : Note.Separated α :=
  { a with notes := a.notes.map Note.lowered }

def Note.Phrased.lowered (a : Note.Phrased α) : Note.Phrased α :=
  { a with notes := a.notes.map Note.lowered }

namespace Score

omit [Quantity α] in
theorem general_respelled (h : CandidateRespelled v w) :
    Text.lower (general v) = Text.lower (general w) := by
  have hlower (o : Option Text) : Text.lower (o.getD []) = (o.map Text.lower).getD [] := by
    cases o <;> rfl
  rw [general, general, hlower, hlower, Json.Value.bind_text?_lower h.articulation_rel]

theorem takeIn_respelled (h : CandidateRespelled v w) (i : Instrument α) (s : Settings α)
    {e f : Pattern.Expansion α} (hef : e.Alike f) :
    (takeIn i s v e).lowered = (takeIn i s w f).lowered := by
  have hnotes := Note.takeIn_respelled
    (List.rel_append (Json.Value.elements_rel .refl h.notes_rel) hef.notes) s.span s.meter i
  have hhits := Hit.takeIn_respelled (Json.Value.elements_rel .refl h.drums_rel) s.span s.meter i
  obtain ⟨hlowered, hreport⟩ := Note.Taken.mk.inj hnotes
  rw [takeIn, takeIn]
  dsimp only
  split
  · rw [elementsOf, elementsOf, hhits, Note.Taken.lowered, List.map_append, hlowered, hreport,
      ← List.map_append]
    rfl
  · exact hnotes

/-! Each stage commutes with lowering, so it is alike on notes that are lowered alike. -/

section Stages

variable {notes others : List (Note α)}
  (h : notes.map Note.lowered = others.map Note.lowered) (i : Instrument α) (s : Settings α)

include h

theorem snap_alike : (snap i s notes).lowered = (snap i s others).lowered := by
  have hlowered (notes : List (Note α)) :
      (snap i s notes).lowered = snap i s (notes.map Note.lowered) := by
    rw [snap, snap, Harmony.snap_retag, apply_ite Harmony.Snapped.lowered]
    rfl
  rw [hlowered, hlowered, h]

theorem separate_alike : (Note.separate notes).lowered = (Note.separate others).lowered := by
  have hlowered (notes : List (Note α)) :
      (Note.separate notes).lowered = Note.separate (notes.map Note.lowered) :=
    (Note.separate_retag ..).symm
  rw [hlowered, hlowered, h]

theorem phrase_alike {name other : Text} (hname : Text.lower name = Text.lower other) (m : Meter)
    (arranged : Bool) : (Note.phrase i m name arranged notes).lowered =
      (Note.phrase i m other arranged others).lowered := by
  have hlowered (name : Text) (notes : List (Note α)) :
      (Note.phrase i m name arranged notes).lowered =
        Note.phrase i m (Text.lower name) arranged (notes.map Note.lowered) :=
    (Note.phrase_lowered ..).symm
  rw [hlowered, hlowered, h, hname]

theorem deliver_alike {name other : Text} (hname : Text.lower name = Text.lower other)
    {changes timeline : List (ArticulationChange α)}
    (hchanges : changes.map ArticulationChange.lowered = timeline.map ArticulationChange.lowered) :
    (deliver i s notes changes name).lowered = (deliver i s others timeline other).lowered := by
  rw [deliver, deliver, ← Articulator.resolve_lowered, h, hchanges, hname,
    Articulator.resolve_lowered]

end Stages

/-- Two scores whose tags and names differ in the case of letters only. -/
structure Alike (a b : Score α) : Prop where
  expansion : a.expansion.Alike b.expansion
  taken : a.taken.lowered = b.taken.lowered
  snapped : a.snapped.lowered = b.snapped.lowered
  separated : a.separated.lowered = b.separated.lowered
  phrased : a.phrased.lowered = b.phrased.lowered
  timeline : a.timeline.map ArticulationChange.lowered = b.timeline.map ArticulationChange.lowered
  delivered : a.delivered.lowered = b.delivered.lowered

theorem ofCandidate_respelled (h : CandidateRespelled v w) (i : Instrument α) (s : Settings α) :
    Alike (ofCandidate i s v) (ofCandidate i s w) := by
  have hexpansion := Pattern.expand_respelled h s.meter
  have hgeneral := general_respelled h
  have htaken := takeIn_respelled h i s hexpansion
  have hsnapped := snap_alike (Note.Taken.mk.inj htaken).1 i s
  have hseparated := separate_alike (Harmony.Snapped.mk.inj hsnapped).1
  have hphrased := phrase_alike (Note.Separated.mk.inj hseparated).1 i hgeneral s.meter s.arranged
  have htimeline := ArticulationChange.readAll_respelled h s.meter
  have hdelivered := deliver_alike (Note.Phrased.mk.inj hphrased).1 i s hgeneral htimeline
  exact ⟨hexpansion, htaken, hsnapped, hseparated, hphrased, htimeline, hdelivered⟩

end Score

/-! ### Parts -/

namespace Part

/-- The part with the tags of its notes and all names of articulations in lower case. -/
def lowered (p : Part α) : Part α :=
  { p with
    notes := p.notes.map Note.lowered
    articulation := p.articulation.map Text.lower
    timeline := p.timeline.map ArticulationChange.lowered }

section Tells

variable {notes others : List (Note α)} (h : CandidateRespelled v w)
  (hnotes : notes.map Note.lowered = others.map Note.lowered) (i : Instrument α) (s : Settings α)

include hnotes

theorem sort_alike : (Note.sort notes).map Note.lowered = (Note.sort others).map Note.lowered := by
  rw [← Note.sort_retag, hnotes, Note.sort_retag]

theorem motif_alike (count : Nat) : Motif.ofNotes count notes = Motif.ofNotes count others := by
  rw [← Motif.ofNotes_retag Text.lower notes, hnotes, Motif.ofNotes_retag]

theorem keyOf_alike : keyOf i notes = keyOf i others := by
  rw [keyOf, keyOf, ← Key.roots_retag Text.lower notes, hnotes, Key.roots_retag]

include h

theorem curves_alike : curves i s v notes = curves i s w others := by
  rw [curves, curves, h.member_eq (by decide), ← Dynamics.shape_retag Text.lower notes, hnotes,
    Dynamics.shape_retag]

theorem handoffOf_alike : handoffOf s v notes = handoffOf s w others := by
  have hofNotes : Handoff.ofNotes s.span s.role notes = Handoff.ofNotes s.span s.role others := by
    rw [← Handoff.ofNotes_retag Text.lower notes, hnotes, Handoff.ofNotes_retag]
  have hvalidate : Handoff.validate s.span notes = Handoff.validate s.span others := by
    funext handoff
    rw [← Handoff.validate_retag Text.lower notes, hnotes, Handoff.validate_retag]
  rw [handoffOf, handoffOf, Value.present?, Value.present?, h.find?_eq_of_other (by decide),
    hofNotes, hvalidate]

end Tells

theorem ofScore_alike (h : CandidateRespelled v w) (i : Instrument α) (s : Settings α)
    {a b : Score α} (hab : a.Alike b) :
    (ofScore i s v a).lowered = (ofScore i s w b).lowered := by
  obtain ⟨hnotes, hkeyswitches, hcontrols, hprograms, hlabel, hunknown⟩ :=
    Delivered.mk.inj hab.delivered
  have hsort := sort_alike hnotes
  have hmarkers : markersOf s v = markersOf s w := by
    rw [markersOf, markersOf, h.member_eq (by decide)]
  have htype : member v "generation_type" = member w "generation_type" :=
    h.member_eq (by decide)
  have hstyle : member v "generation_style" = member w "generation_style" :=
    h.member_eq (by decide)
  have hreports : a.taken.report = b.taken.report ∧ a.separated.report = b.separated.report ∧
      a.phrased.report = b.phrased.report :=
    ⟨(Note.Taken.mk.inj hab.taken).2, (Note.Separated.mk.inj hab.separated).2,
      (Note.Phrased.mk.inj hab.phrased).2⟩
  have hmoves : a.snapped.corrections = b.snapped.corrections ∧
      a.snapped.anticipations = b.snapped.anticipations :=
    (Harmony.Snapped.mk.inj hab.snapped).2
  simp only [ofScore, lowered, curves_alike h hnotes i s, hmarkers, handoffOf_alike h hsort s,
    motif_alike hsort, keyOf_alike hsort i, hsort, hkeyswitches, hcontrols, hprograms, hlabel,
    hunknown, htype, hstyle, hreports, hmoves, hab.timeline, hab.expansion.notes.length_eq,
    hab.expansion.skipped, hab.expansion.truncated]

/-- Whatever the case of the letters in a candidate's names is, the same part is compiled, up to the
case of the letters in its articulations. -/
theorem compile_respelled (h : CandidateRespelled v w) (i : Instrument α) (s : Settings α) :
    (compile i s v).map lowered = (compile i s w).map lowered := by
  rw [compile, compile, h.isObject_eq, apply_ite (Except.map lowered),
    apply_ite (Except.map lowered), apply_ite (Except.map lowered), apply_ite (Except.map lowered)]
  congr 2
  exact congrArg Except.ok (ofScore_alike h i s (Score.ofCandidate_respelled h i s))

end Part

/-- A drum kit that is switched to rim shots by a key, and for which rim shots are short. -/
def rimKit : Value Rat :=
  .object [("midi", .object [("is_drum", .bool true), ("drum_map", .object [("snare", .number 38)])]),
    ("articulations", .object [("mode", .string "keyswitch"),
      ("map", .object [("rimshot", .object [("pitch", .number 24)])]),
      ("short_articulations", .array [.string "rimshot"])])]

def rimDrummer : Instrument Rat := (Instrument.read? rimKit).get (by decide)

def rimNote (tag : Text) : Value Rat :=
  .object [("pitch", .number 38), ("dur_q", .number 2), ("art", .string tag)]

def rimHit (drum : Text) : Value Rat := .object [("drum", .string drum), ("start_q", .number 1)]

/-- A long note with a tag, and a hit. -/
def rimmed (tag drum : Text) : Value Rat :=
  .object [("notes", .array [rimNote tag]), ("drums", .array [rimHit drum])]

theorem rimmed_respelled {tag other drum name : Text} (htag : Text.lower tag = Text.lower other)
    (hdrum : Text.lower drum = Text.lower name) :
    CandidateRespelled (rimmed tag drum) (rimmed other name) := by
  have hnote : NoteRespelled (rimNote tag) (rimNote other) := by
    refine .object (.cons ⟨rfl, Value.under_refl .refl _ _⟩
      (.cons ⟨rfl, Value.under_refl .refl _ _⟩ (.cons ⟨rfl, ?_⟩ .nil)))
    change Value.under _ _ "art" _ _
    rw [Value.under_of_mem (by decide)]
    exact .text htag
  have hhit : DrumRespelled (rimHit drum) (rimHit name) := by
    refine .object (.cons ⟨rfl, ?_⟩ (.cons ⟨rfl, Value.under_refl .refl _ _⟩ .nil))
    change Value.under _ _ "drum" _ _
    rw [Value.under_of_mem (by decide)]
    exact .text hdrum
  refine .object (.cons ⟨rfl, ?_⟩ (.cons ⟨rfl, ?_⟩ .nil))
  · rw [Value.candidateMember_notes]
    exact .array (.cons hnote .nil)
  · rw [Value.candidateMember_drums]
    exact .array (.cons hhit .nil)

theorem rimDrummer_rimmed_respelled : Instrument.read? rimKit = some rimDrummer ∧
    CandidateRespelled (rimmed "Rimshot" "Snare") (rimmed "RIMSHOT" "snare") ∧
    (∃ part, Part.compile rimDrummer { length := 4 } (rimmed "Rimshot" "Snare") = .ok part) ∧
    (Part.compile rimDrummer { length := 4 } (rimmed "Rimshot" "Snare")).map Part.lowered =
      (Part.compile rimDrummer { length := 4 } (rimmed "RIMSHOT" "snare")).map Part.lowered := by
  have hspelled : CandidateRespelled (rimmed "Rimshot" "Snare") (rimmed "RIMSHOT" "snare") :=
    rimmed_respelled (by decide) (by decide)
  exact ⟨(Option.some_get _).symm, hspelled, ⟨_, Part.compile_ok _ _ rfl⟩,
    Part.compile_respelled hspelled _ _⟩

end MusicPart
