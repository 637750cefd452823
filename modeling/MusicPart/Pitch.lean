import MusicPart.Midi

/-!
# Pitches

A pitch is a MIDI note number, with 60 for middle C, and its class is its remainder by twelve. A
note name is a letter, at most one accidental and an octave.
-/

namespace MusicPart

structure PitchRange where
  low : Int := 0
  high : Int := 127
  deriving Repr, DecidableEq

namespace PitchRange

def contains (r : PitchRange) (pitch : Int) : Bool := r.low ≤ pitch && pitch ≤ r.high

end PitchRange

namespace Pitch

open Text

def classOf (pitch : Int) : Int := pitch % 12

def classNames : List Text := ["C", "C#", "D", "D#", "E", "F", "F#", "G", "G#", "A", "A#", "B"]

def className (pitch : Int) : Text := classNames.getD (classOf pitch).toNat []

def name (pitch : Int) : Text :=
  let p := Midi.clampData pitch
  className p ++ ofInt (p / 12 - 1)

/-! ### Reading names -/

def letters : List (UInt8 × Int) :=
  [(byte 'c', 0), (byte 'd', 2), (byte 'e', 4), (byte 'f', 5), (byte 'g', 7), (byte 'a', 9),
    (byte 'b', 11)]

def letter? (b : UInt8) : Option Int := (letters.find? (·.1 == lowerByte b)).map (·.2)

/-- At most one sharp or flat. -/
def accidental : Text → Int × Text
  | b :: t => if b == byte '#' then (1, t) else if b == byte 'b' then (-1, t) else (0, b :: t)
  | [] => (0, [])

/-- The semitones above C that a text starts by naming, unreduced, and the rest of the text. -/
def degree? : Text → Option (Int × Text)
  | [] => none
  | b :: t => do
      let semitone ← letter? b
      let (shift, rest) := accidental t
      return (semitone + shift, rest)

/-- The pitch class that a text starts by naming, and the rest of the text. -/
def startClass? (t : Text) : Option (Int × Text) := (degree? t).map fun p => (classOf p.1, p.2)

/-- A sign and at most six digits. -/
def shortInteger? (t : Text) : Option Int :=
  let (negative, digits) :=
    match t with
    | b :: rest => if b == byte '-' then (true, rest) else (false, t)
    | [] => (false, t)
  if digits.isEmpty || 6 < digits.length || !digits.all isDigit then none
  else if negative then some (-(digitsValue digits : Int))
  else some (digitsValue digits)

def ofName? (t : Text) : Option Int := do
  let (semitone, rest) ← degree? (trim t)
  let octave ← shortInteger? rest
  if -2 ≤ octave && octave ≤ 10 then some ((octave + 1) * 12 + semitone) else none

def largest : Int := 100000

/-- A number, or a text that holds a whole number or a note name. -/
def ofText? (t : Text) : Option Int :=
  match shortInteger? (trim t) with
  | some p => if p.natAbs ≤ largest.natAbs then some p else none
  | none => ofName? t

variable {α : Type} [Quantity α]

def ofValue? : Json.Value α → Option Int
  | .number x => if Quantity.ofInt largest < Quantity.abs x then none else some (Quantity.toInt x)
  | .string t => ofText? t
  | _ => none

/-! ### Ranges -/

/-- Goes up by octaves to the lower bound and then down by octaves to the upper one. -/
def shiftOctaves (pitch low high : Int) : Int :=
  let up := if pitch < low then pitch + 12 * ((low - pitch + 11) / 12) else pitch
  if high < up then up - 12 * ((up - high + 11) / 12) else up

/-- Brings a pitch between two bounds, given in either order. With `octave`, a pitch of its own
class is preferred to the nearest bound. -/
def fit (pitch a b : Int) (octave : Bool) : Int :=
  let low := if b < a then b else a
  let high := if b < a then a else b
  let shifted := shiftOctaves pitch low high
  if low ≤ pitch && pitch ≤ high then pitch
  else if octave && low ≤ shifted && shifted ≤ high then shifted
  else Midi.clamp pitch low high

end Pitch

end MusicPart
