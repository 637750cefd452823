import MusicPart.Instrument
import MusicPart.Note.Reader

/-!
# Taking in notes

Raw notes and drum hits become notes within a selection and an instrument, and every entry that does
not is counted under the reason why. A selection shorter than the shortest note takes none.
-/

namespace MusicPart

/-- What became of the entries of a document. -/
structure Intake where
  input : Nat := 0
  dropped : Nat := 0
  fitted : Nat := 0
  trimmed : Nat := 0
  crowded : Nat := 0
  unknownDrums : Nat := 0
  deriving Repr, DecidableEq

namespace Intake

def add (a b : Intake) : Intake :=
  ⟨a.input + b.input, a.dropped + b.dropped, a.fitted + b.fitted, a.trimmed + b.trimmed,
    a.crowded + b.crowded, a.unknownDrums + b.unknownDrums⟩

end Intake

namespace Note

open Json (Value)

variable {α : Type} [Quantity α]

/-! ### Bounds -/

/-- An onset and a duration within a selection that holds at least the shortest note. -/
def boundTime (length start duration : α) : α × α :=
  let start := Quantity.clamp start 0.0 (Quantity.greater 0.0 (length - shortest))
  let duration := Quantity.greater shortest duration
  if length < start + duration then (start, Quantity.greater shortest (length - start))
  else (start, duration)

def bound (length : α) (i : Instrument α) (n : Note α) : Note α :=
  let (start, duration) := boundTime length n.start n.duration
  { start, duration
    pitch := Midi.clampData (Pitch.fit n.pitch i.range.low i.range.high (!i.clampsPitch))
    velocity := Midi.clampVelocity n.velocity
    channel := Midi.clamp n.channel 1 16
    tag := n.tag }

/-! ### One note at a time -/

/-- Each note with the one after it. -/
def followed : List (Note α) → List (Note α × Option (Note α))
  | [] => []
  | n :: notes => (n, notes.head?) :: followed notes

/-- The notes whose onset is far enough after the last one kept. -/
def apart : Option α → List (Note α) → List (Note α)
  | _, [] => []
  | last, n :: notes =>
      if last.any fun t => n.start - t < shortest - slack then apart last notes
      else n :: apart (some n.start) notes

/-- The notes that `apart` leaves out. -/
def crowding : Option α → List (Note α) → List (Note α)
  | _, [] => []
  | last, n :: notes =>
      if last.any fun t => n.start - t < shortest - slack then n :: crowding last notes
      else crowding (some n.start) notes

def reaches (p : Note α × Option (Note α)) : Bool := p.2.any fun next => next.start < p.1.finish

/-- Ends a note before the next one if it reaches it. -/
def yield (p : Note α × Option (Note α)) : Note α :=
  match p.2 with
  | none => p.1
  | some next =>
      if next.start < p.1.finish then
        { p.1 with duration := Quantity.greater shortest (next.start - p.1.start - gap) }
      else p.1

def sortByPitch (notes : List (Note α)) : List (Note α) :=
  notes.mergeSort fun a b =>
    !(if b.start != a.start then decide (b.start < a.start) else decide (b.pitch < a.pitch))

structure Taken (α : Type) where
  notes : List (Note α)
  report : Intake

def monophonic (notes : List (Note α)) : Taken α :=
  let kept := apart none (sortByPitch notes)
  ⟨(followed kept).map yield,
    { trimmed := (followed kept).countP reaches
      crowded := (crowding none (sortByPitch notes)).length }⟩

/-! ### Lists of raw notes -/

def boundAll (length : α) (i : Instrument α) (raws : List (Value α)) (notes : List (Note α)) :
    Taken α :=
  let pairs := notes.map fun n => (n, bound length i n)
  ⟨pairs.map (·.2),
    { input := raws.length, fitted := pairs.countP fun p => p.1.pitch != p.2.pitch }⟩

def takeIn (length : α) (m : Meter) (i : Instrument α) (raws : List (Value α)) : Taken α :=
  if shortest ≤ length then
    let taken := boundAll length i raws (raws.filterMap (read? m i.channel))
    let report :=
      { taken.report with dropped := raws.countP fun raw => (read? m i.channel raw).isNone }
    if i.mono then
      let mono := monophonic taken.notes
      ⟨mono.notes, report.add mono.report⟩
    else ⟨taken.notes, report⟩
  else ⟨[], { input := raws.length, dropped := raws.length }⟩

end Note

/-! ### Drum hits -/

inductive Hit (α : Type) where
  | unreadable
  | unknown
  | note (n : Note α)

namespace Hit

open Json (Value)

variable {α : Type} [Quantity α]

def defaultVelocity : Int := 100

def drumName? (raw : Value α) : Option Text :=
  ((raw.first? ["drum", "name"]).bind Value.text?).filter (!·.isEmpty)

/-- The onset, duration and velocity of a hit. -/
def values? (m : Meter) (raw : Value α) : Option (α × α × Int) := do
  let start ← Position.onset? m raw
  let duration ← ((raw.first? ["dur_q", "dur"]).map NoteValue.ofValue?).getD (some Note.shortest)
  let velocity ← ((raw.first? ["vel", "velocity", "dyn"]).map DynamicMark.velocityOfValue?).getD
    (some defaultVelocity)
  if Quantity.isFinite duration then return (start, duration, velocity) else none

def read (length : α) (m : Meter) (i : Instrument α) (raw : Value α) : Hit α :=
  match drumName? raw with
  | none => .unreadable
  | some name =>
      match i.drums.find? (Text.lower name) with
      | none => .unknown
      | some pitch =>
          match values? m raw with
          | none => .unreadable
          | some (start, duration, velocity) =>
              let (start, duration) := Note.boundTime length start duration
              .note ⟨start, duration, Midi.clampData pitch, Midi.clampVelocity velocity,
                Midi.channelOr i.channel (raw.first? ["chan", "channel"]), []⟩

def note? : Hit α → Option (Note α)
  | note n => some n
  | _ => none

def isUnreadable : Hit α → Bool
  | unreadable => true
  | _ => false

def isUnknown : Hit α → Bool
  | unknown => true
  | _ => false

def takeIn (length : α) (m : Meter) (i : Instrument α) (raws : List (Value α)) : Note.Taken α :=
  if Note.shortest ≤ length then
    let hits := raws.map (read length m i)
    ⟨hits.filterMap note?,
      { input := raws.length, dropped := hits.countP isUnreadable
        unknownDrums := hits.countP isUnknown }⟩
  else ⟨[], { input := raws.length, dropped := raws.length }⟩

end Hit

end MusicPart
