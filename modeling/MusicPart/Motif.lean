import MusicPart.Json.Value
import MusicPart.Note

/-!
# Motifs

The motif of a part is its opening: the first notes with times from the first onset on, the steps
between their pitches, and their durations.
-/

namespace MusicPart.Motif

open Json (Value)

variable {α : Type} [Quantity α]

def maxNotes : Nat := 8

def opening (count : Nat) (notes : List (Note α)) : List (Note α) := (Note.sort notes).take count

def steps : List (Note α) → List Int
  | n :: next :: notes => (next.pitch - n.pitch) :: steps (next :: notes)
  | _ => []

def finish (origin : α) (notes : List (Note α)) : α :=
  notes.foldl (fun t n => Quantity.greater t n.finish) origin

def entry (origin : α) (n : Note α) : Value α :=
  .object [
    ("start_q", .number (n.start - origin)),
    ("dur_q", .number n.duration),
    ("pitch", .ofInt n.pitch),
    ("vel", .ofInt n.velocity)]

/-- Null if there are no notes. -/
def ofNotes (count : Nat) (notes : List (Note α)) : Value α :=
  match opening count notes with
  | [] => .null
  | n :: rest =>
      let origin := n.start
      .object [
        ("notes", .array ((n :: rest).map (entry origin))),
        ("intervals", .array ((steps (n :: rest)).map Value.ofInt)),
        ("rhythm", .array ((n :: rest).map fun m => .number m.duration)),
        ("length_q", .number (finish origin (n :: rest) - origin))]

end MusicPart.Motif
