import MusicPart.CommandLine.Options
import MusicPart.Instrument.Reader
import MusicPart.Json.Reader
import MusicPart.Part.Bundle
import MusicPart.Part.Log
import MusicPart.Session

/-!
# The command line

A run reads a candidate, a profile and perhaps a chord map from files, compiles the part, and prints
its bundle or asks for it to be saved. Running is a function of the arguments and of the files; a
run that saves has two ends, one for either outcome of the saving.
-/

namespace MusicPart.CommandLine

open Json (Value)
open Text (ofString ofNat ofInt)

/-- A file to be written, with what is then printed on the error output. -/
structure Saving where
  path : Text
  content : Text
  whenSaved : Text
  whenRefused : Text
  deriving Repr, DecidableEq

structure Outcome where
  code : Nat := 0
  output : Text := []
  errors : Text := []
  saving : Option Saving := none
  deriving Repr, DecidableEq

namespace Outcome

/-- The end of a run whose file, if it has one, was saved or not. -/
def settle (o : Outcome) (saved : Bool) : Outcome :=
  match o.saving with
  | none => o
  | some s =>
      if saved then { o with errors := o.errors ++ s.whenSaved }
      else { o with code := 1, errors := o.errors ++ s.whenRefused }

end Outcome

def usage : Text := [
  "partc_cli - Musical part compiler",
  "",
  "Usage: partc_cli --candidate FILE --profile FILE [options]",
  "",
  "Options:",
  "  --candidate FILE  Candidate part JSON (required)",
  "  --profile FILE    Instrument profile JSON (required)",
  "  --length-q N      Selection length in quarters (default 16)",
  "  --time-sig N/D    Time signature (default 4/4)",
  "  --chord-map FILE  Chord map JSON array",
  "  --role NAME       Part role for a synthesized handoff",
  "  --allow-tempo     Keep validated tempo markers",
  "  --arrange         Arrangement context (bow splitting)",
  "  --motif           Add extracted_motif to the bundle",
  "  --handoff         Synthesize a handoff when the candidate has none",
  "  --compact         Write compact JSON",
  "  --verbose         Log compile stages to stderr",
  "  -o FILE           Output file path (default stdout)",
  "  --help            Show this help"].flatMap fun t => line [ofString t]

/-! ### Files -/

/-- The content of each file that can be read. -/
abbrev Files := Text → Option Text

section

variable {α : Type} [Quantity α]

def failure (parts : List Text) : Text := line (ofString "Error: " :: parts)

def load (files : Files) (path : Text) : Except Text (Value α) :=
  match files path with
  | none => .error (failure ["cannot open ", path])
  | some t => (Json.parse t).mapError fun e => failure [path, ": ", e]

def loadInstrument (files : Files) (path : Text) : Except Text (Instrument α) := do
  let raw ← load files path
  (Instrument.read? raw).elim (.error (failure [path, ": ", Instrument.notAnObject])) .ok

def loadChordMap (files : Files) (path : Text) : Except Text (Value α) :=
  if path.isEmpty then .ok .null else load files path

/-- The candidate is read before the profile, the profile is understood only after that, and the
chord map comes last. -/
def loadRequest (files : Files) (o : Options) : Except Text (Request α) := do
  let candidate ← load files o.candidate
  let instrument ← loadInstrument files o.profile
  let chordMap ← loadChordMap files o.chordMap
  return {
    candidate, instrument
    settings := {
      length := o.lengthOf
      meter := o.meter
      chordMap
      keepsTempo := o.keepsTempo
      arranged := o.arranged
      wantsMotif := o.wantsMotif
      wantsHandoff := o.wantsHandoff
      role := o.role } }

/-! ### Reports -/

def shownId (i : Instrument α) : Text := if i.id.isEmpty then "(unnamed)" else Text.beforeNul i.id

def header (o : Options) (i : Instrument α) : Text :=
  line ["partc_cli v", version] ++
    line ["Profile:    ", shownId i] ++
    line ["Length:     ", o.lengthText α, " q"] ++
    line ["Time sig:   ", ofInt o.meter.beats, "/", ofInt o.meter.unit]

def savedLine (o : Options) (p : Part α) : Text :=
  line ["Output:     ", o.output, " (", ofNat p.notes.length, " notes, ",
    ofNat p.controls.length, " cc events)"]

def spoken (o : Options) (t : Text) : Text := if o.verbose then t else []

/-! ### Running -/

def bundleText (o : Options) (p : Part α) : Text := p.bundle.render (if o.compact then 0 else 2)

/-- Hands out a part after what was reported so far. -/
def deliver (o : Options) (p : Part α) (errors : Text) : Outcome :=
  let content := line [bundleText o p]
  if o.output.isEmpty then { output := content, errors }
  else
    { errors
      saving := some {
        path := o.output
        content
        whenSaved := spoken o (savedLine o p)
        whenRefused := failure ["failed to write ", o.output] } }

def compileRequest (o : Options) (r : Request α) (errors : Text) : Outcome :=
  let errors := errors ++ spoken o (header o r.instrument)
  match Part.compile r.instrument r.settings r.candidate with
  | .error e => { code := 1, errors := errors ++ failure [e.message] }
  | .ok p => deliver o p (errors ++ spoken o p.log)

end

/-- A run in the arithmetic of `α`. -/
def run (α : Type) [Quantity α] (files : Files) (args : List Text) : Outcome :=
  let reading := readOptions args
  let o := reading.options
  let errors := reading.warnings.flatten
  if reading.help then { output := usage, errors }
  else if o.candidate.isEmpty || o.profile.isEmpty then
    { code := 1, output := usage
      errors := errors ++ failure ["--candidate and --profile are required"] }
  else
    match loadRequest (α := α) files o with
    | .error e => { code := 1, errors := errors ++ e }
    | .ok r => compileRequest o r errors

end MusicPart.CommandLine
