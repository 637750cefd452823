import MusicPart.Note
import MusicPart.Position
import MusicPart.Shorthand

/-!
# Reading notes

A raw note tells its onset, pitch, duration, velocity, channel and articulation, each under several
keys. What it does not tell has a default; one that tells something unreadable is no note. The
values are not yet within the bounds of a selection or an instrument.
-/

namespace MusicPart.Note

open Json (Value)

variable {α : Type} [Quantity α]

def defaultPitch : Int := 60

def defaultVelocity : Int := 80

/-- A note that is placed by bars, or written as a note name and not at a time, lasts a quarter
where it does not say how long. -/
def defaultDuration (raw : Value α) : α :=
  if (raw.first? ["start_q", "time_q"]).isNone && (raw.has "bar" || raw.has "note") then 1.0
  else shortest

/-- A text with a bracket is a shorthand, which may bring a duration and a velocity along. -/
def shorthand? : Option (Value α) → Option (Shorthand α)
  | none => some ⟨defaultPitch, none, none⟩
  | some v =>
      match v.text?.filter (·.contains (Text.byte '(')) with
      | some t => Shorthand.read? t
      | none => (Pitch.ofValue? v).map (⟨·, none, none⟩)

def tagOf (raw : Value α) : Text :=
  (((raw.first? ["articulation", "art"]).bind Value.text?).map (Text.strip Text.isBlank)).getD []

def read? (m : Meter) (channel : Int) (raw : Value α) : Option (Note α) := do
  if !raw.isObject then none
  let start ← Position.onset? m raw
  let written ← shorthand? (raw.first? ["pitch", "note", "midi"])
  let duration ←
    match raw.first? ["dur_q", "dur", "duration"] with
    | some v => NoteValue.ofValue? v
    | none => some (written.duration.getD (defaultDuration raw))
  if !Quantity.isFinite duration || !Quantity.isFinite start then none
  let velocity ←
    match raw.first? ["vel", "velocity", "dyn", "dynamic"] with
    | some v => DynamicMark.velocityOfValue? v
    | none => some (written.velocity.getD defaultVelocity)
  return ⟨start, duration, written.pitch, velocity,
    Midi.channelOr channel (raw.first? ["chan", "channel"]), tagOf raw⟩

end MusicPart.Note
