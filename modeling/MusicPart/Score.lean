import MusicPart.Articulation.Delivery
import MusicPart.Chord.Snap
import MusicPart.Note.Overlap
import MusicPart.Note.Phrasing
import MusicPart.Pattern

/-!
# Scores

The notes of a candidate on their way to an instrument. They are taken in together with the notes
that patterns place and, for drums, the hits; a pitched part is snapped to the chord map; overlaps
are removed; durations are held to what a player can do; and articulations are delivered. Each
stage starts from the notes of the one before it.
-/

namespace MusicPart

/-- What is asked of a part besides its candidate and its instrument. -/
structure Settings (α : Type) where
  length : α
  meter : Meter := {}
  chordMap : Json.Value α := .null
  keepsTempo : Bool := false
  arranged : Bool := false
  wantsMotif : Bool := false
  wantsHandoff : Bool := false
  role : Text := []

structure Score (α : Type) where
  expansion : Pattern.Expansion α
  taken : Note.Taken α
  snapped : Harmony.Snapped α
  separated : Note.Separated α
  phrased : Note.Phrased α
  timeline : List (ArticulationChange α)
  delivered : Delivered α

namespace Settings

variable {α : Type} [Quantity α]

/-- The length of the selection, which is never below zero. -/
def span (s : Settings α) : α := Quantity.greater 0.0 s.length

end Settings

namespace Score

open Json (Value)

variable {α : Type} [Quantity α]

def elementsOf (key : Text) (candidate : Value α) : List (Value α) :=
  ((candidate.find? key).map Value.elements).getD []

/-- The articulation of the part as a whole; empty if the candidate names none. -/
def general (candidate : Value α) : Text :=
  ((candidate.find? "articulation").bind Value.text?).getD []

def takeIn (i : Instrument α) (s : Settings α) (candidate : Value α)
    (expansion : Pattern.Expansion α) : Note.Taken α :=
  let notes := Note.takeIn s.span s.meter i (elementsOf "notes" candidate ++ expansion.notes)
  if i.isDrum then
    let hits := Hit.takeIn s.span s.meter i (elementsOf "drums" candidate)
    ⟨notes.notes ++ hits.notes, notes.report.add hits.report⟩
  else notes

/-- Drums, and parts without a chord map, keep their pitches. -/
def snap (i : Instrument α) (s : Settings α) (notes : List (Note α)) : Harmony.Snapped α :=
  let map := Harmony.readMap s.meter s.chordMap
  if i.isDrum || map.isEmpty then ⟨notes, 0, 0⟩ else Harmony.snap map i.range notes

def deliver (i : Instrument α) (s : Settings α) (notes : List (Note α))
    (timeline : List (ArticulationChange α)) (general : Text) : Delivered α :=
  (⟨i.articulations, i.channel, s.span⟩ : Articulator α).resolve notes timeline general

def ofCandidate (i : Instrument α) (s : Settings α) (candidate : Value α) : Score α :=
  let expansion := Pattern.expand s.meter candidate
  let taken := takeIn i s candidate expansion
  let snapped := snap i s taken.notes
  let separated := Note.separate snapped.notes
  let phrased := Note.phrase i s.meter (general candidate) s.arranged separated.notes
  let timeline :=
    ArticulationChange.readAll s.meter ((candidate.find? "articulation_changes").getD .null)
  { expansion, taken, snapped, separated, phrased, timeline
    delivered := deliver i s phrased.notes timeline (general candidate) }

end Score

end MusicPart
