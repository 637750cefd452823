import MusicPart.Instrument.Reader
import MusicPart.Json.Reader
import MusicPart.Part

/-!
# Requests

A request is one JSON document with a candidate, an instrument and settings. The candidate may also
come as a text that is itself a document. What is wrong first with a request, in this order, is why
it is refused; a refusal has a status, which is a number with a fixed description, and a message.
-/

namespace MusicPart

/-! ### Status -/

inductive Status where
  | ok
  | invalidParameter
  | invalidJson
  | invalidCandidate
  | invalidInstrument
  | invalidLength
  | notCompiled
  deriving Repr, DecidableEq

namespace Status

def all : List Status :=
  [ok, invalidParameter, invalidJson, invalidCandidate, invalidInstrument, invalidLength,
    notCompiled]

def code : Status → Nat
  | ok => 0
  | invalidParameter => 1
  | invalidJson => 2
  | invalidCandidate => 3
  | invalidInstrument => 4
  | invalidLength => 5
  | notCompiled => 6

def text : Status → Text
  | ok => "No error"
  | invalidParameter => "Invalid parameter"
  | invalidJson => "Invalid JSON"
  | invalidCandidate => "Invalid candidate"
  | invalidInstrument => "Invalid instrument profile"
  | invalidLength => "Invalid length (must be > 0)"
  | notCompiled => "Compilation failed"

def ofCode? (n : Int) : Option Status := all.find? fun s => (s.code : Int) == n

/-- The description of a number, whether or not it is a status. -/
def describe (n : Int) : Text := ((ofCode? n).map text).getD "Unknown error"

end Status

/-! ### Refusals -/

inductive Refusal where
  | malformed (message : Text)
  | notAnObject
  | noCandidate
  | candidateMalformed (message : Text)
  | candidateNotAnObject
  | noInstrument
  | instrumentNotAnObject
  | lengthNotPositive
  | invalidMeter (meter : Text)
  | notCompiled (e : PartError)
  deriving Repr, DecidableEq

namespace Refusal

def status : Refusal → Status
  | malformed _ => .invalidJson
  | notAnObject => .invalidParameter
  | noCandidate => .invalidCandidate
  | candidateMalformed _ => .invalidJson
  | candidateNotAnObject => .invalidCandidate
  | noInstrument => .invalidInstrument
  | instrumentNotAnObject => .invalidInstrument
  | lengthNotPositive => .invalidLength
  | invalidMeter _ => .invalidParameter
  | notCompiled _ => .notCompiled

def message : Refusal → Text
  | malformed m => m
  | notAnObject => "request must be a JSON object"
  | noCandidate => "missing candidate"
  | candidateMalformed m => Text.ofString "candidate: " ++ m
  | candidateNotAnObject => PartError.notAnObject.message
  | noInstrument => "missing profile"
  | instrumentNotAnObject => Instrument.notAnObject
  | lengthNotPositive => "length_q must be a positive number"
  | invalidMeter t => Text.ofString "invalid time_sig: " ++ t
  | notCompiled e => e.message

end Refusal

/-! ### Reading -/

structure Request (α : Type) where
  candidate : Json.Value α
  instrument : Instrument α
  settings : Settings α

namespace Request

open Json (Value)

variable {α : Type} [Quantity α]

def document (raw : Value α) : Except Refusal (Value α) :=
  match raw with
  | .string t => (Json.parse t).mapError .candidateMalformed
  | v => .ok v

def candidateOf (raw : Value α) : Except Refusal (Value α) :=
  match raw.find? "candidate" with
  | none => .error .noCandidate
  | some v => do
      let v ← document v
      if v.isObject then .ok v else .error .candidateNotAnObject

def instrumentOf (raw : Value α) : Except Refusal (Instrument α) :=
  match raw.find? "profile" with
  | none => .error .noInstrument
  | some v => (Instrument.read? v).elim (.error .instrumentNotAnObject) .ok

def lengthOf (raw : Value α) : Except Refusal α :=
  (((raw.find? "length_q").bind Value.numeric?).filter fun x => 0.0 < x).elim
    (.error .lengthNotPositive) .ok

/-- A meter that is not a text is left out of account. -/
def meterOf (raw : Value α) : Except Refusal Meter :=
  match (raw.find? "time_sig").bind Value.text? with
  | none => .ok {}
  | some t => (Meter.read? t).elim (.error (.invalidMeter t)) .ok

def isSet (raw : Value α) (key : Text) : Bool := ((raw.find? key).map (·.boolOr false)).getD false

def settingsOf (raw : Value α) : Except Refusal (Settings α) := do
  let length ← lengthOf raw
  let meter ← meterOf raw
  return {
    length, meter
    chordMap := .array (Score.elementsOf "chord_map" raw)
    role := ((raw.find? "role").bind Value.text?).getD []
    keepsTempo := isSet raw "allow_tempo_changes"
    arranged := isSet raw "arrangement"
    wantsMotif := isSet raw "extract_motif"
    wantsHandoff := isSet raw "require_handoff" }

def read (t : Text) : Except Refusal (Request α) := do
  let raw ← (Json.parse t).mapError .malformed
  if !raw.isObject then .error .notAnObject
  let candidate ← candidateOf raw
  let instrument ← instrumentOf raw
  return ⟨candidate, instrument, ← settingsOf raw⟩

def compile (r : Request α) : Except Refusal (Part α) :=
  (Part.compile r.instrument r.settings r.candidate).mapError .notCompiled

/-- The part that a text asks for. -/
def answer (t : Text) : Except Refusal (Part α) := do (← read t).compile

end Request

end MusicPart
