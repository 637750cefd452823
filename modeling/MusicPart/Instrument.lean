import MusicPart.Curve
import MusicPart.Pitch
import MusicPart.Table

/-!
# Instruments

What a part has to respect when an instrument plays it: the range, the channel, the drums it knows,
how controllers follow curves, how articulations are asked for, and how long a note can last.
-/

namespace MusicPart

inductive Family where
  | unknown
  | wind
  | strings
  | keyboard
  | percussion
  | other
  deriving Repr, DecidableEq

namespace Family

def name : Family → Text
  | unknown => "unknown"
  | wind => "wind"
  | strings => "strings"
  | keyboard => "keyboard"
  | percussion => "percussion"
  | other => "other"

def names : List (Text × Family) :=
  [("", unknown), ("unknown", unknown), ("brass", wind), ("woodwind", wind), ("woodwinds", wind),
    ("wind", wind), ("winds", wind), ("reed", wind), ("reeds", wind), ("strings", strings),
    ("string", strings), ("bowed", strings), ("bowed_strings", strings), ("keys", keyboard),
    ("keyboard", keyboard), ("keyboards", keyboard), ("piano", keyboard), ("drums", percussion),
    ("percussion", percussion), ("perc", percussion)]

def ofName (t : Text) : Family := ((names.find? (·.1 == Text.lower t)).map (·.2)).getD other

end Family

/-- How an articulation reaches the instrument. -/
inductive Delivery where
  | none
  | keyswitch
  | control
  | program
  | channel
  deriving Repr, DecidableEq

namespace Delivery

def name : Delivery → Text
  | none => "none"
  | keyswitch => "keyswitch"
  | control => "cc"
  | program => "program_change"
  | channel => "channel"

def ofName (t : Text) : Delivery :=
  let t := Text.lower t
  if t == keyswitch.name then keyswitch
  else if t == control.name then control
  else if t == program.name then program
  else if t == channel.name then channel
  else none

end Delivery

structure Smoothing (α : Type) where
  step : α
  interpolation : Interpolation
  /-- Whether a sample is written only where the value changes. -/
  sparse : Bool

structure Controllers (α : Type) where
  ofCurve : Table Int
  smoothing : Smoothing α

structure Articulation where
  pitch : Option Int
  velocity : Int
  channel : Int
  controlValue : Option Int
  program : Int
  dynamics : Text
  deriving Repr, DecidableEq

structure Articulations (α : Type) where
  delivery : Delivery
  /-- Articulations by their names in lower case. -/
  entries : Table Articulation
  short : List Text
  longest : Table α
  controller : Int
  octaves : Int
  preRoll : α
  switchLength : α
  hold : Bool

/-- How long a note lasts in one breath or one bow, and what lies between two. -/
structure Stamina (α : Type) where
  breath : α
  breathGap : α
  maxPieces : Int
  bowBars : α
  bowGap : α

structure Instrument (α : Type) where
  id : Text
  name : Text
  range : PitchRange
  preferred : Option PitchRange
  channel : Int
  mono : Bool
  isDrum : Bool
  /-- Pitches by drum names in lower case. -/
  drums : Table Int
  family : Family
  /-- Whether a pitch out of range goes to the nearest bound instead of moving by octaves. -/
  clampsPitch : Bool
  controllers : Controllers α
  articulations : Articulations α
  stamina : Stamina α

namespace Articulations

variable {α : Type}

def find? (as : Articulations α) (name : Text) : Option Articulation :=
  as.entries.find? (Text.lower name)

end Articulations

namespace Instrument

variable {α : Type} [Quantity α]

/-- The finest step at which curves are sampled. -/
def finestStep : α := 0.0625

def plainSmoothing : Smoothing α := ⟨finestStep, .cubic, false⟩

def plainArticulations : Articulations α :=
  { delivery := .none, entries := [], short := [], longest := [], controller := 32, octaves := 0,
    preRoll := 0.05, switchLength := 0.125, hold := false }

def plainStamina : Stamina α := ⟨4.0, 0.25, 64, 1.0, 0.0⟩

/-- The instrument of an empty description. -/
def plain : Instrument α :=
  { id := [], name := [], range := {}, preferred := none, channel := 1, mono := false,
    isDrum := false, drums := [], family := .unknown, clampsPitch := false,
    controllers := ⟨[], plainSmoothing⟩, articulations := plainArticulations,
    stamina := plainStamina }

end Instrument

end MusicPart
