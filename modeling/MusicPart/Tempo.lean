import MusicPart.Meter
import MusicPart.Midi
import MusicPart.Note

/-!
# Tempo markers

A marker sets a tempo, a meter or both at a time. Of the markers that can be read, in order of time,
one is kept when it is at least a quarter of a quarter note after the last one kept, and at most
eight are kept.
-/

namespace MusicPart

structure TempoMarker (α : Type) where
  time : α
  bpm : Option α
  meter : Option Meter
  linear : Bool

namespace TempoMarker

variable {α : Type} [Quantity α]

/-! ### Reading -/

def wholeNumber? (v : Json.Value α) : Option Int := do
  let x ← v.numeric?
  if Quantity.floor x != x || 1e6 < Quantity.abs x then none else return Quantity.toInt x

def denominators : List Int := [1, 2, 4, 8, 16, 32]

/-- A meter of two members, and only without either of them one of a text. -/
def rawMeter? (raw : Json.Value α) : Option Meter :=
  match raw.first? ["num", "numerator", "time_sig_num"],
    raw.first? ["denom", "denominator", "time_sig_denom"] with
  | none, none => ((raw.find? "time_sig").bind Json.Value.text?).bind Meter.read?
  | beats, unit => do return ⟨← wholeNumber? (← beats), ← wholeNumber? (← unit)⟩

def meter? (raw : Json.Value α) : Option Meter := do
  let m ← rawMeter? raw
  if denominators.contains m.unit then return { m with beats := Midi.clamp m.beats 1 32 } else none

def bpm? (raw : Json.Value α) : Option α := do
  let x ← (← raw.first? ["bpm", "tempo"]).numeric?
  return Quantity.roundTo 1000.0 (Quantity.clamp x 30.0 240.0)

def isSet (raw : Json.Value α) (key : Text) : Bool := ((raw.find? key).map (·.truthy)).getD false

def read? (length : α) (raw : Json.Value α) : Option (TempoMarker α) := do
  let time ← (← raw.first? ["time_q", "start_q", "time"]).numeric?
  let time := Quantity.roundTo 1e6 (Quantity.clamp time 0.0 (Quantity.greater 0.0 length))
  let bpm := bpm? raw
  let meter := meter? raw
  if bpm.isNone && meter.isNone then none
  else return ⟨time, bpm, meter, isSet raw "linear" || isSet raw "ramp"⟩

/-! ### Thinning -/

def maxMarkers : Nat := 8

def minGap : α := 0.25

def sort (markers : List (TempoMarker α)) : List (TempoMarker α) :=
  markers.mergeSort fun a b => !decide (b.time < a.time)

/-- The markers that are far enough after the last one kept, up to so many. -/
def thin : Nat → Option α → List (TempoMarker α) → List (TempoMarker α)
  | 0, _, _ => []
  | _, _, [] => []
  | room + 1, last, m :: ms =>
      if last.all fun t => minGap - Note.slack ≤ m.time - t then m :: thin room (some m.time) ms
      else thin (room + 1) last ms

structure Thinned (α : Type) where
  markers : List (TempoMarker α)
  dropped : Nat

def normalize (length : α) (raw : Json.Value α) : Thinned α :=
  let kept := thin maxMarkers none (sort (raw.elements.filterMap (read? length)))
  ⟨kept, raw.elements.length - kept.length⟩

end TempoMarker

end MusicPart
