import MusicPart.Character
import MusicPart.Json.Value
import MusicPart.Pitch

/-!
# Handoffs

A handoff tells the next player what a part does and what room it leaves. One is written from the
notes of a part; one that came with a part is completed where it says nothing, and corrected where
it contradicts the notes.
-/

namespace MusicPart.Handoff

open Json (Value)
open Text (ofString)

variable {α : Type} [Quantity α]

def string (t : Text) : Value α := .string t

def join (separator : Text) (parts : List Text) : Text := (parts.intersperse separator).flatten

/-- The one of two texts that is wanted, in a list. -/
def optional (wanted : Bool) (t : Text) : List Text := if wanted then [t] else []

/-! ### Writing -/

def musicalFunction (length : α) (role : Text) (notes : List (Note α)) : Text :=
  let role := Text.lower role
  let feel := Character.feel length notes
  if feel == .dense || feel == .steadyPulse || feel == .syncopated then "rhythmic_foundation"
  else if feel == .sustained then "harmonic_pad"
  else if 72 < Character.highest notes && Character.ofNat notes.length < length * 2.0 then
    "melodic_lead"
  else if role.isEmpty || role == ofString "unknown" then "harmonic_support"
  else role

def gaps (feel : Feel) (low high : Int) : List Text :=
  optional (high < 72) ("high register open (above " ++ Pitch.name high ++ ")") ++
    optional (48 < low) ("low register available (below " ++ Pitch.name low ++ ")") ++
    optional (feel == .sustained || feel == .sparse) "rhythmic space available" ++
    optional (feel == .dense || feel == .steadyPulse) "sustained notes would complement"

def suggestions (register : Register) (feel : Feel) (low high : Int) : List Text :=
  optional register.isLow ("add melody above " ++ Pitch.name high) ++
    optional register.isHigh ("add bass/harmony below " ++ Pitch.name low) ++
    optional (feel == .dense || feel == .syncopated) "play sparser, longer notes" ++
    optional (feel == .sustained) "add rhythmic motion"

def joinOr (default separator : Text) (parts : List Text) : Text :=
  if parts.isEmpty then default else join separator parts

def maxSuggestion : Nat := 1000

def ofSilence (role : Text) : Value α :=
  .object [
    ("musical_function", string (if role.isEmpty then "unknown" else role)),
    ("occupied_range", string "unknown"),
    ("rhythmic_feel", string "unknown"),
    ("intensity_curve", string "static"),
    ("gaps_for_others", string "entire range available"),
    ("suggestion_for_next", string "Free to play any part")]

/-- The lowest and highest note, and the register that they make. -/
def rangeText (register : Register) (low high : Int) : Text :=
  Pitch.name low ++ "-" ++ Pitch.name high ++ " (" ++ register.name ++ ")"

def ofNotes (length : α) (role : Text) (notes : List (Note α)) : Value α :=
  if notes.isEmpty then ofSilence role
  else
    let low := Character.lowest notes
    let high := Character.highest notes
    let register := Character.register notes
    let feel := Character.feel length notes
    let suggestion :=
      joinOr "complement existing part" "; " (suggestions register feel low high)
    .object [
      ("musical_function", string (musicalFunction length role notes)),
      ("occupied_range", string (rangeText register low high)),
      ("rhythmic_feel", string feel.name),
      ("intensity_curve", string (Character.intensity notes).name),
      ("gaps_for_others", string (joinOr "limited space available" ", " (gaps feel low high))),
      ("suggestion_for_next", string (suggestion.take maxSuggestion))]

/-! ### Completing -/

def required : List Text :=
  ["musical_function", "occupied_range", "rhythmic_feel", "intensity_curve", "gaps_for_others"]

def tells (v : Value α) (key : Text) : Bool := (v.find? key).any (·.truthy)

/-- Fills a member that says nothing from another handoff. -/
def fill (source v : Value α) (key : Text) : Value α :=
  if tells v key then v else v.set key ((source.find? key).getD (string "unknown"))

def complete (source v : Value α) : Value α := required.foldl (fill source) v

/-! ### Correcting -/

def claim (v : Value α) (key : Text) : Text :=
  Text.lower (((v.find? key).bind Value.text?).getD [])

def isOneOf (t : Text) (names : List Text) : Bool := names.contains t

def contradictsRange (r : Register) (claimed : Text) : Bool :=
  (r.isLow && isOneOf claimed [Register.high.name, Register.highMid.name]) ||
    (r.isHigh && isOneOf claimed [Register.low.name, Register.lowMid.name])

def contradictsFeel (f : Feel) (claimed : Text) : Bool :=
  match f with
  | .dense => claimed == Feel.sparse.name
  | .sparse => claimed == Feel.dense.name
  | .sustained => isOneOf claimed [Feel.dense.name, Feel.syncopated.name]
  | _ => false

/-- Replaces a member and says so under another key. -/
def replace (wrong : Bool) (key flag new : Text) (v : Value α) : Value α :=
  if wrong then (v.set key (string new)).set flag (.bool true) else v

def correct (length : α) (notes : List (Note α)) (v : Value α) : Value α :=
  if notes.isEmpty then v
  else
    let register := Character.register notes
    let feel := Character.feel length notes
    let wrongRange := contradictsRange register (claim v "occupied_range")
    let wrongFeel := contradictsFeel feel (claim v "rhythmic_feel")
    replace wrongFeel "rhythmic_feel" "_rhythmic_corrected" feel.name
      (replace wrongRange "occupied_range" "_range_corrected" register.name v)

def shorten (v : Value α) : Value α :=
  match (v.find? "suggestion_for_next").bind Value.text? with
  | some t =>
      if maxSuggestion < t.length then v.set "suggestion_for_next" (string (t.take maxSuggestion))
      else v
  | none => v

def validate (length : α) (notes : List (Note α)) (v : Value α) : Value α :=
  if v.members.isEmpty then ofNotes length [] notes
  else shorten (correct length notes (complete (ofNotes length [] notes) v))

end MusicPart.Handoff
