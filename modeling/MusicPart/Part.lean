import MusicPart.Curve.Control
import MusicPart.Dynamics
import MusicPart.Handoff
import MusicPart.Key
import MusicPart.Motif
import MusicPart.Score
import MusicPart.Tempo

/-!
# Parts

A part is what an instrument plays within a selection: notes in order, control changes, articulation
switches and tempo markers, with what the next player is told. It is compiled from a candidate, an
object that describes it loosely. Elements that cannot be read are left out and counted, so only a
candidate that is no object or a selection without a finite length has no part.
-/

namespace MusicPart

/-- What was done to a candidate. -/
structure Report where
  patternNotes : Nat
  skippedRepeats : Nat
  patternsTruncated : Bool
  intake : Intake
  corrections : Nat
  anticipations : Nat
  overlaps : Overlaps
  phrasing : Phrasing
  unknownArticulations : Nat
  dynamics : DynamicsReport
  droppedMarkers : Nat
  key : Text
  deriving Repr, DecidableEq

structure Part (α : Type) where
  /-- Notes in order. -/
  notes : List (Note α)
  controls : List (ControlChange α)
  keyswitches : List (Keyswitch α)
  programs : List (ProgramChange α)
  articulation : Option Text
  timeline : List (ArticulationChange α)
  markers : List (TempoMarker α)
  generationType : Json.Value α
  generationStyle : Json.Value α
  /-- Null where there is none. -/
  handoff : Json.Value α
  /-- Null where there is none. -/
  motif : Json.Value α
  report : Report

inductive PartError where
  | notAnObject
  | lengthNotFinite
  deriving Repr, DecidableEq

namespace PartError

def message : PartError → Text
  | notAnObject => "candidate must be a JSON object"
  | lengthNotFinite => "length_q must be a finite number"

end PartError

namespace Part

open Json (Value)

variable {α : Type} [Quantity α]

def member (candidate : Value α) (key : Text) : Value α := (candidate.find? key).getD .null

/-- The curves of a candidate, with the dynamics of pitched parts filled in. -/
def curves (i : Instrument α) (s : Settings α) (candidate : Value α) (notes : List (Note α)) :
    Dynamics.Shaped α :=
  let read :=
    Curve.readAll i.controllers.smoothing.interpolation s.meter (member candidate "curves")
  if i.isDrum then ⟨read, {}⟩ else Dynamics.shape i.controllers s.span notes read

def markersOf (s : Settings α) (candidate : Value α) : TempoMarker.Thinned α :=
  if s.keepsTempo then TempoMarker.normalize s.span (member candidate "tempo_markers") else ⟨[], 0⟩

/-- A handoff that came with the candidate is kept to what the notes allow. -/
def handoffOf (s : Settings α) (candidate : Value α) (notes : List (Note α)) : Value α :=
  match candidate.present? "handoff" with
  | some v => Handoff.validate s.span notes v
  | none => if s.wantsHandoff then Handoff.ofNotes s.span s.role notes else .null

def keyOf (i : Instrument α) (notes : List (Note α)) : Text :=
  if i.isDrum then "unknown" else Key.ofRoots (Key.roots notes)

def ofScore (i : Instrument α) (s : Settings α) (candidate : Value α) (score : Score α) : Part α :=
  let delivered := score.delivered
  let shaped := curves i s candidate delivered.notes
  let markers := markersOf s candidate
  let notes := Note.sort delivered.notes
  { notes
    controls := delivered.controls ++
      Curve.controlAll i.controllers s.span i.channel shaped.curves
    keyswitches := delivered.keyswitches
    programs := delivered.programs
    articulation := delivered.label
    timeline := score.timeline
    markers := markers.markers
    generationType := member candidate "generation_type"
    generationStyle := member candidate "generation_style"
    handoff := handoffOf s candidate notes
    motif := if s.wantsMotif then Motif.ofNotes Motif.maxNotes notes else .null
    report :=
      { patternNotes := score.expansion.notes.length
        skippedRepeats := score.expansion.skipped
        patternsTruncated := score.expansion.truncated
        intake := score.taken.report
        corrections := score.snapped.corrections
        anticipations := score.snapped.anticipations
        overlaps := score.separated.report
        phrasing := score.phrased.report
        unknownArticulations := delivered.unknown
        dynamics := shaped.report
        droppedMarkers := markers.dropped
        key := keyOf i notes } }

def compile (i : Instrument α) (s : Settings α) (candidate : Value α) : Except PartError (Part α) :=
  if !candidate.isObject then .error .notAnObject
  else if !Quantity.isFinite s.length then .error .lengthNotFinite
  else .ok (ofScore i s candidate (Score.ofCandidate i s candidate))

end Part

end MusicPart
