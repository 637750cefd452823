import MusicPart.Json.Value

/-!
# MIDI numbers

Data values run from 0 to 127, velocities from 1 to 127 and channels from 1 to 16.
-/

namespace MusicPart.Midi

def clamp (n low high : Int) : Int := if n < low then low else if high < n then high else n

def clampData (n : Int) : Int := clamp n 0 127

def clampVelocity (n : Int) : Int := clamp n 1 127

variable {α : Type} [Quantity α]

/-- The nearest data value; what is not a number counts as zero. -/
def ofQuantity (x : α) : Int :=
  clampData (Quantity.toInt (Quantity.round (Quantity.clamp x 0.0 127.0)))

/-- Channels 0 to 15 are counted from zero and moved up by one; 16 is taken as it is. -/
def channelOr (default : Int) (v : Option (Json.Value α)) : Int :=
  match v.bind Json.Value.numeric? with
  | none => default
  | some x =>
      let n := Json.Value.saturate x
      if 0 ≤ n && n ≤ 15 then n + 1 else if n = 16 then 16 else default

end MusicPart.Midi
