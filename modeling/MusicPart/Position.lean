import MusicPart.Meter
import MusicPart.Json.Value

/-!
# Positions

An object of a document tells its time directly under one of several keys, or by bar and beat, of
which an absent one counts as the first. An object that tells nothing is at time zero; one whose
time cannot be read has no position.
-/

namespace MusicPart.Position

variable {α : Type} [Quantity α]

def numericOr? (default : α) : Option (Json.Value α) → Option α
  | none => some default
  | some v => v.numeric?

def inBars? (m : Meter) (raw : Json.Value α) : Option α :=
  match raw.find? "bar", raw.find? "beat" with
  | none, none => some 0.0
  | bar, beat => do return m.timeAt (← numericOr? 1.0 bar) (← numericOr? 1.0 beat)

def read? (keys : List Text) (m : Meter) (raw : Json.Value α) : Option α :=
  match raw.first? keys with
  | some time => time.numeric?
  | none => inBars? m raw

/-- The time of a note, a drum hit or a repeat. -/
def onset? (m : Meter) (raw : Json.Value α) : Option α := read? ["start_q", "time_q"] m raw

end MusicPart.Position
