import MusicPart.Proofs.Literals
import MusicPart.Proofs.Retagging

/-!
# Letter case of articulations

Phrasing and delivery look tags and names up in lower case and compare them so, the tag that was
delivered last included. If all of them are lowered, then so are the tags and the label of what is
delivered, and nothing else changes.
-/

namespace MusicPart

variable {α : Type}

/-! ### Lower case -/

namespace Text

theorem lowerByte_lowerByte (b : UInt8) : lowerByte (lowerByte b) = lowerByte b :=
  Json.Literal.forall_byte (p := fun b => lowerByte (lowerByte b) = lowerByte b)
    (by decide +kernel) b

theorem isBlank_lowerByte (b : UInt8) : isBlank (lowerByte b) = isBlank b :=
  Json.Literal.forall_byte (p := fun b => isBlank (lowerByte b) = isBlank b) (by decide +kernel) b

@[simp]
theorem lower_lower (t : Text) : lower (lower t) = lower t := by
  rw [lower, lower, List.map_map]
  exact List.map_congr_left fun b _ => lowerByte_lowerByte b

@[simp]
theorem isEmpty_lower (t : Text) : (lower t).isEmpty = t.isEmpty := List.isEmpty_map

theorem isEmpty_congr {s t : Text} (h : lower s = lower t) : s.isEmpty = t.isEmpty := by
  rw [← isEmpty_lower s, h, isEmpty_lower]

theorem dropWhile_lower (t : Text) :
    (lower t).dropWhile isBlank = lower (t.dropWhile isBlank) := by
  have hblank : isBlank ∘ lowerByte = isBlank := funext isBlank_lowerByte
  rw [lower, List.dropWhile_map, hblank]
  rfl

/-- Stripping takes the same bytes away whatever the case of the letters is. -/
theorem lower_strip (t : Text) : lower (strip isBlank t) = strip isBlank (lower t) := by
  have hreverse (t : Text) : (lower t).reverse = lower t.reverse := List.map_reverse.symm
  rw [strip, strip, dropEndWhile, dropEndWhile, dropWhile_lower, hreverse, dropWhile_lower,
    hreverse]

end Text

namespace Articulations

@[simp]
theorem find?_lower (as : Articulations α) (name : Text) :
    as.find? (Text.lower name) = as.find? name := by
  rw [find?, find?, Text.lower_lower]

end Articulations

/-! ### Phrasing -/

namespace Note

/-- A note with its tag in lower case. -/
abbrev lowered (n : Note α) : Note α := retag Text.lower n

variable [Quantity α]

omit [Quantity α] in
@[simp]
theorem isShort_lower (as : Articulations α) (name : Text) :
    isShort as (Text.lower name) = isShort as name := by
  simp only [isShort, Text.isEmpty_lower, Text.lower_lower, Articulations.find?_lower]

@[simp]
theorem longest_lower (as : Articulations α) (name : Text) :
    longest as (Text.lower name) = longest as name := by
  simp only [longest, Text.lower_lower]

theorem capped?_lowered (as : Articulations α) (general : Text) (n : Note α) :
    capped? as (Text.lower general) (lowered n) = (capped? as general n).map lowered := by
  have hname : (if (lowered n).tag.isEmpty then Text.lower general else (lowered n).tag) =
      Text.lower (if n.tag.isEmpty then general else n.tag) := by
    rw [retag_tag, Text.isEmpty_lower, apply_ite Text.lower]
  rw [capped?, capped?, hname, isShort_lower, longest_lower, apply_ite (Option.map lowered)]
  rfl

theorem capShort_lowered (as : Articulations α) (general : Text) (notes : List (Note α)) :
    capShort as (Text.lower general) (notes.map lowered) =
      { capShort as general notes with
        notes := (capShort as general notes).notes.map lowered } := by
  have hnotes (n : Note α) : (capped? as (Text.lower general) (lowered n)).getD (lowered n) =
      lowered ((capped? as general n).getD n) := by
    rw [capped?_lowered]
    cases capped? as general n <;> rfl
  have hcapped (n : Note α) : (capped? as (Text.lower general) (lowered n)).isSome =
      (capped? as general n).isSome := by
    rw [capped?_lowered, Option.isSome_map]
  rw [capShort, capShort, List.map_map, List.countP_map]
  simp only [Function.comp_def, hnotes, hcapped, List.map_map]

theorem phrase_lowered (i : Instrument α) (m : Meter) (general : Text) (arranged : Bool)
    (notes : List (Note α)) : phrase i m (Text.lower general) arranged (notes.map lowered) =
      { phrase i m general arranged notes with
        notes := (phrase i m general arranged notes).notes.map lowered } := by
  simp only [phrase, capShort_lowered, splitBreaths_retag, splitBows_retag]
  split
  · rfl
  · split <;> rfl

end Note

/-! ### Delivery -/

namespace ArticulationChange

def lowered (c : ArticulationChange α) : ArticulationChange α := { c with name := Text.lower c.name }

end ArticulationChange

namespace Delivered

def lowered (d : Delivered α) : Delivered α :=
  { d with notes := d.notes.map Note.lowered, label := d.label.map Text.lower }

end Delivered

namespace Articulator

variable (s : Articulator α)

@[simp]
theorem knows_lower (name : Text) : s.knows (Text.lower name) = s.knows name := by
  rw [knows, knows, Articulations.find?_lower]

@[simp]
theorem isTagged_lowered (n : Note α) : isTagged n.lowered = isTagged n := by
  rw [isTagged, isTagged, Note.retag_tag, Text.isEmpty_lower]

@[simp]
theorem isUnknown_lowered (n : Note α) : s.isUnknown n.lowered = s.isUnknown n := by
  rw [isUnknown, isUnknown, isTagged_lowered, Note.retag_tag, knows_lower]

theorem erase_lowered (n : Note α) : s.erase n.lowered = (s.erase n).lowered := by
  rw [erase, erase, isUnknown_lowered, apply_ite Note.lowered]
  rfl

theorem labelOf_lower (names : List Text) :
    labelOf (names.map Text.lower) = (labelOf names).map Text.lower := by
  cases names with
  | nil => rfl
  | cons name names =>
      have hnames : ((name :: names).map Text.lower).map Text.lower =
          (name :: names).map Text.lower := by
        rw [List.map_map]
        exact List.map_congr_left fun t _ => Text.lower_lower t
      rw [List.map_cons] at hnames ⊢
      rw [labelOf, labelOf, hnames, List.map_cons, apply_ite (Option.map Text.lower)]
      rfl

theorem route_lowered (channel : Int) (notes : List (Note α)) :
    (notes.map Note.lowered).map (route channel) =
      (notes.map (route channel)).map Note.lowered := by
  rw [List.map_map, List.map_map]
  rfl

theorem byTimeline_lowered (notes : List (Note α)) (timeline : List (ArticulationChange α)) :
    s.byTimeline (notes.map Note.lowered) (timeline.map ArticulationChange.lowered) =
      ((s.byTimeline notes timeline).1.map Note.lowered, (s.byTimeline notes timeline).2) := by
  have hknown : (timeline.map ArticulationChange.lowered).filterMap
      (fun c => (s.articulations.find? c.name).map (·, c.time)) =
        timeline.filterMap fun c => (s.articulations.find? c.name).map (·, c.time) := by
    rw [List.filterMap_map]
    congr 1
    funext c
    rw [Function.comp_apply, ArticulationChange.lowered, Articulations.find?_lower]
  have hunknown : (timeline.map ArticulationChange.lowered).countP (fun c => !s.knows c.name) =
      timeline.countP fun c => !s.knows c.name := by
    rw [List.countP_map]
    exact List.countP_congr fun c _ => by
      rw [Function.comp_apply, ArticulationChange.lowered, knows_lower]
  rw [byTimeline, byTimeline, hknown, hunknown]
  dsimp only
  split
  · rw [route_lowered, apply_ite (List.map Note.lowered)]
  · rfl

theorem runHeads_lowered (current : Text) (notes : List (Note α)) :
    s.runHeads current (notes.map Note.lowered) = s.runHeads current notes := by
  induction notes generalizing current with
  | nil => rfl
  | cons n notes ih =>
      rw [List.map_cons, runHeads, runHeads, isTagged_lowered, Note.retag_tag, Text.lower_lower,
        Articulations.find?_lower, ih, ih]
      rfl

theorem carry_lowered (channel : Option Int) (notes : List (Note α)) :
    s.carry channel (notes.map Note.lowered) = (s.carry channel notes).map Note.lowered := by
  induction notes generalizing channel with
  | nil => rfl
  | cons n notes ih =>
      rw [List.map_cons, carry, carry, isTagged_lowered, Note.retag_tag, Articulations.find?_lower,
        ih, List.map_cons]
      congr 1
      cases ((s.articulations.find? n.tag).filter (fun _ => isTagged n) |>.map s.channelOf).or
        channel <;> rfl

theorem map_tag_lowered (notes : List (Note α)) :
    ((notes.map Note.lowered).filter isTagged).map (·.tag) =
      ((notes.filter isTagged).map (·.tag)).map Text.lower := by
  have htagged : isTagged ∘ Note.lowered = isTagged (α := α) := funext isTagged_lowered
  rw [List.filter_map, htagged, List.map_map, List.map_map]
  rfl

variable [Quantity α]

theorem resolve_lowered (notes : List (Note α)) (timeline : List (ArticulationChange α))
    (general : Text) :
    s.resolve (notes.map Note.lowered) (timeline.map ArticulationChange.lowered)
      (Text.lower general) = (s.resolve notes timeline general).lowered := by
  have hunknown : (notes.map Note.lowered).countP s.isUnknown = notes.countP s.isUnknown := by
    rw [List.countP_map]
    exact List.countP_congr fun n _ => by rw [Function.comp_apply, isUnknown_lowered]
  have herased : (notes.map Note.lowered).map s.erase = (notes.map s.erase).map Note.lowered := by
    rw [List.map_map, List.map_map]
    exact List.map_congr_left fun n _ => s.erase_lowered n
  have hnames : (timeline.map ArticulationChange.lowered).map (·.name) =
      (timeline.map (·.name)).map Text.lower := by
    rw [List.map_map, List.map_map]
    rfl
  have htagged : (notes.map Note.lowered).any isTagged = notes.any isTagged := by
    rw [List.any_map]
    exact congrArg _ (funext isTagged_lowered)
  rw [resolve, resolve, hunknown, herased, htagged, List.isEmpty_map, Text.isEmpty_lower]
  split
  · rw [byTimeline_lowered, hnames, labelOf_lower]
    rfl
  · split
    · dsimp only
      rw [Note.sortByStart_retag, map_tag_lowered, labelOf_lower, carry_lowered, runHeads_lowered,
        ← apply_ite (List.map Note.lowered)]
      rfl
    · split
      · rfl
      · rw [Articulations.find?_lower]
        cases s.articulations.find? general with
        | none => rfl
        | some a =>
            dsimp only
            rw [route_lowered, ← apply_ite (List.map Note.lowered)]
            rfl

end Articulator

end MusicPart
