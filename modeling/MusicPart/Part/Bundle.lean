import MusicPart.Json.Writer
import MusicPart.Part

/-!
# Bundles

A part is handed out as one JSON object. Events are listed in the order of the part. Members on
articulation changes, tempo markers, the handoff and the motif are there only if there are any.
-/

namespace MusicPart.Part

open Json (Value)

variable {α : Type} [Quantity α]

def string (t : Text) : Value α := .string t

def array {β : Type} (f : β → Value α) (xs : List β) : Value α := .array (xs.map f)

/-! ### Events -/

def noteMembers (n : Note α) : List (Text × Value α) :=
  [("start_q", .number n.start),
    ("dur_q", .number n.duration),
    ("pitch", .ofInt n.pitch),
    ("vel", .ofInt n.velocity),
    ("chan", .ofInt n.channel)]

def tagMembers (tag : Text) : List (Text × Value α) :=
  if tag.isEmpty then [] else [("articulation", string tag)]

def noteValue (n : Note α) : Value α := .object (noteMembers n ++ tagMembers n.tag)

def controlValue (c : ControlChange α) : Value α :=
  .object [
    ("time_q", .number c.time),
    ("cc", .ofInt c.controller),
    ("value", .ofInt c.value),
    ("chan", .ofInt c.channel)]

def keyswitchValue (k : Keyswitch α) : Value α :=
  .object [
    ("time_q", .number k.time),
    ("pitch", .ofInt k.pitch),
    ("vel", .ofInt k.velocity),
    ("chan", .ofInt k.channel),
    ("dur_q", .number k.duration)]

def programValue (p : ProgramChange α) : Value α :=
  .object [
    ("time_q", .number p.time),
    ("program", .ofInt p.program),
    ("chan", .ofInt p.channel)]

def changeValue (c : ArticulationChange α) : Value α :=
  .object [("time_q", .number c.time), ("articulation", string c.name)]

def tempoMembers : Option α → List (Text × Value α)
  | none => []
  | some bpm => [("bpm", .number bpm)]

def meterMembers : Option Meter → List (Text × Value α)
  | none => []
  | some m => [("num", .ofInt m.beats), ("denom", .ofInt m.unit)]

def markerValue (m : TempoMarker α) : Value α :=
  .object (("time_q", .number m.time) :: (tempoMembers m.bpm ++ meterMembers m.meter ++
    [(Text.ofString "linear", .bool m.linear)]))

/-! ### The whole -/

def articulationValue : Option Text → Value α
  | none => .null
  | some name => .string name

/-- A member that is left out if its list is empty. -/
def listed {β : Type} (key : Text) (f : β → Value α) (xs : List β) : List (Text × Value α) :=
  if xs.isEmpty then [] else [(key, array f xs)]

/-- A member that is left out if it is null. -/
def unlessNull (key : Text) (v : Value α) : List (Text × Value α) :=
  if v.isNull then [] else [(key, v)]

def eventMembers (p : Part α) : List (Text × Value α) :=
  [("notes", array noteValue p.notes),
    ("cc_events", array controlValue p.controls),
    ("keyswitches", array keyswitchValue p.keyswitches),
    ("program_changes", array programValue p.programs),
    ("articulation", articulationValue p.articulation)]

def bundle (p : Part α) : Value α :=
  .object (eventMembers p ++ listed "articulation_changes" changeValue p.timeline ++
    listed "tempo_markers" markerValue p.markers ++
    [(Text.ofString "generation_type", p.generationType),
      (Text.ofString "generation_style", p.generationStyle)] ++
    unlessNull "handoff" p.handoff ++ unlessNull "extracted_motif" p.motif)

end MusicPart.Part
