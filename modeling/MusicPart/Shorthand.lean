import MusicPart.DynamicMark
import MusicPart.NoteValue
import MusicPart.Pitch

/-!
# Note shorthand

A shorthand such as `C#4(8th, mf)` holds a pitch and, between the first brackets, any number of
parameters. A parameter is a note value, a dynamic mark or a velocity, in this order of preference;
of several of a kind the last counts, and what is none of them has no effect.
-/

namespace MusicPart

structure Shorthand (α : Type) where
  pitch : Int
  duration : Option α := none
  velocity : Option Int := none

namespace Shorthand

open Text

variable {α : Type} [Quantity α]

/-- The text before the brackets and the text between them. The first closing bracket has to come
after the first opening one. -/
def split (t : Text) : Text × Text :=
  match cutAt? (byte '(') t with
  | none => (t, [])
  | some (head, tail) =>
      match cutAt? (byte ')') tail with
      | some (params, _) => if head.contains (byte ')') then (t, []) else (head, params)
      | none => (t, [])

/-- The number that a machine word of 32 bits keeps of a run of digits which was first held to the
greatest signed word of 64 bits. -/
def wordValue (digits : Text) : Int :=
  let n : Int := min (digitsValue digits) 0x7FFFFFFFFFFFFFFF
  Int.bmod n 0x100000000

def velocity? (param : Text) : Option Int :=
  DynamicMark.velocity? param <|>
    if !param.isEmpty && param.all isDigit then
      some (wordValue param) |>.filter fun n => 1 ≤ n && n ≤ 127
    else none

def apply (s : Shorthand α) (param : Text) : Shorthand α :=
  let param := NoteValue.folded param
  match NoteValue.named? param with
  | some d => { s with duration := some d }
  | none => { s with velocity := velocity? param <|> s.velocity }

def read? (t : Text) : Option (Shorthand α) := do
  let (head, params) := split t
  let pitch ← Pitch.ofText? head
  return (splitOn (byte ',') params).foldl apply ⟨pitch, none, none⟩

end Shorthand

end MusicPart
