import MusicPart.Meter
import MusicPart.Numeral.Fixed

/-!
# Options

Arguments are read from left to right; of an option given twice the last one counts. An option that
takes a value is one only if a value follows. What is no option is ignored with a warning, and so is
a meter that cannot be read.
-/

namespace MusicPart.CommandLine

structure Options where
  candidate : Text := []
  profile : Text := []
  /-- Empty for none. -/
  chordMap : Text := []
  /-- Empty for the standard output. -/
  output : Text := []
  role : Text := []
  length : Numeral := .decimal false 16 0
  meter : Meter := {}
  keepsTempo : Bool := false
  arranged : Bool := false
  wantsMotif : Bool := false
  wantsHandoff : Bool := false
  compact : Bool := false
  verbose : Bool := false
  deriving Repr, DecidableEq

/-- The options so far, the warnings about them, and whether help was asked for. -/
structure Reading where
  options : Options := {}
  warnings : List Text := []
  help : Bool := false
  deriving Repr, DecidableEq

def line (parts : List Text) : Text := parts.flatten ++ [0x0A]

namespace Reading

def update (r : Reading) (f : Options → Options) : Reading := { r with options := f r.options }

def warn (r : Reading) (parts : List Text) : Reading :=
  { r with warnings := r.warnings ++ [line parts] }

/-- A value that starts with no numeral is a length of zero. -/
def setLength (t : Text) (r : Reading) : Reading :=
  let length := ((Numeral.read? t).map (·.1)).getD (.decimal false 0 0)
  r.update ({ · with length })

/-- An unreadable meter also undoes an earlier one. -/
def setMeter (t : Text) (r : Reading) : Reading :=
  match Meter.read? t with
  | some meter => r.update ({ · with meter })
  | none =>
      (r.update ({ · with meter := {} })).warn
        ["Warning: invalid time signature '", t, "', using 4/4"]

def valued : List (Text × (Text → Reading → Reading)) := [
  ("--candidate", fun candidate r => r.update ({ · with candidate })),
  ("--profile", fun profile r => r.update ({ · with profile })),
  ("--chord-map", fun chordMap r => r.update ({ · with chordMap })),
  ("--length-q", setLength),
  ("--time-sig", setMeter),
  ("--role", fun role r => r.update ({ · with role })),
  ("-o", fun output r => r.update ({ · with output }))]

def flags : List (Text × (Options → Options)) := [
  ("--allow-tempo", ({ · with keepsTempo := true })),
  ("--arrange", ({ · with arranged := true })),
  ("--motif", ({ · with wantsMotif := true })),
  ("--handoff", ({ · with wantsHandoff := true })),
  ("--compact", ({ · with compact := true })),
  ("--verbose", ({ · with verbose := true }))]

def helps : List Text := ["--help", "-h"]

/-- Takes an argument without a value. -/
def takeAlone (r : Reading) (arg : Text) : Reading :=
  match flags.find? (·.1 == arg) with
  | some flag => r.update flag.2
  | none => r.warn ["Warning: ignoring argument '", arg, "'"]

/-- Help ends the reading. -/
def takeAll (r : Reading) : List Text → Reading
  | [] => r
  | [arg] => if helps.contains arg then { r with help := true } else r.takeAlone arg
  | arg :: value :: args =>
      if helps.contains arg then { r with help := true }
      else
        match valued.find? (·.1 == arg) with
        | some option => takeAll (option.2 value r) args
        | none => takeAll (r.takeAlone arg) (value :: args)

end Reading

def readOptions (args : List Text) : Reading := Reading.takeAll {} args

namespace Options

variable {α : Type} [Quantity α]

def lengthOf (o : Options) : α := o.length.value?.getD 0.0

/-- Three places tell the length; what is no number keeps the sign that it was given with. -/
def lengthText (α : Type) [Quantity α] (o : Options) : Text :=
  match o.length with
  | .nan true => "-nan"
  | _ => Numeral.fixed 3 (o.lengthOf : α)

end Options

end MusicPart.CommandLine
