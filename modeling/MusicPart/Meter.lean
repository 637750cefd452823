import MusicPart.Numeral

/-!
# Meters

Times are counted in quarter notes. A meter turns a position given by bar and beat, both counted
from one, into a time.
-/

namespace MusicPart

structure Meter where
  beats : Int := 4
  unit : Int := 4
  deriving Repr, DecidableEq

namespace Meter

variable {α : Type} [Quantity α]

def beatLength (m : Meter) : α := 4.0 / Quantity.ofInt m.unit

def barLength (m : Meter) : α := Quantity.ofInt m.beats * m.beatLength

/-- Positions before the first bar are at time zero. -/
def timeAt (m : Meter) (bar beat : α) : α :=
  let t := (bar - 1.0) * m.barLength + (beat - 1.0) * m.beatLength
  if t < 0.0 then 0.0 else t

def largest : Int := 1000000

/-- A part of a meter: a whole number that ends with the text or before a NUL. -/
def part? (t : Text) : Option Int :=
  match Numeral.integer? t with
  | some (n, rest) => if (rest.headD 0 == 0) && 1 ≤ n && n ≤ largest then some n else none
  | none => none

/-- Two parts around the first slash. -/
def read? (t : Text) : Option Meter := do
  let (beats, unit) ← Text.cutAt? (Text.byte '/') t
  if beats.isEmpty || unit.isEmpty then none
  else return ⟨← part? beats, ← part? unit⟩

end Meter

end MusicPart
