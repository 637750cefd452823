import MusicPart.Json.Value

/-!
# Note values

A note value names a duration in quarter notes: a word of the table, or a numeral followed by `q`.
Where a duration stands alone, a bare numeral counts as well.
-/

namespace MusicPart.NoteValue

open Text

variable {α : Type} [Quantity α]

def table : List (Text × α) :=
  [("whole", 4.0), ("w", 4.0), ("dotted-half", 3.0), ("dh", 3.0), ("half", 2.0), ("h", 2.0),
    ("dotted-quarter", 1.5), ("dq", 1.5), ("quarter", 1.0), ("q", 1.0), ("dotted-8th", 0.75),
    ("d8", 0.75), ("8th", 0.5), ("8", 0.5), ("eighth", 0.5), ("dotted-16th", 0.375),
    ("d16", 0.375), ("16th", 0.25), ("16", 0.25), ("sixteenth", 0.25), ("32nd", 0.125),
    ("32", 0.125), ("64th", 0.0625), ("64", 0.0625)]

def folded (t : Text) : Text := lower (trim t)

/-- The duration of a name that is already trimmed and in lower case. -/
def named? (t : Text) : Option α :=
  match (table : List (Text × α)).find? (·.1 == t) with
  | some entry => some entry.2
  | none =>
      if 1 < t.length && t.getLast? == some (byte 'q') then Numeral.whole? t.dropLast else none

def read? (t : Text) : Option α := named? (folded t) <|> Numeral.whole? (folded t)

def ofValue? : Json.Value α → Option α
  | .number x => some x
  | .string t => read? t
  | _ => none

end MusicPart.NoteValue
