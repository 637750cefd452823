import MusicPart.Chord.Naming
import MusicPart.Note

/-!
# Keys

The key of a row of chord roots is the lowest tonic whose major or natural minor scale holds them
all, and failing that the most frequent root.
-/

namespace MusicPart.Key

open Text

def major : List Int := [0, 2, 4, 5, 7, 9, 11]

def naturalMinor : List Int := [0, 2, 3, 5, 7, 8, 10]

def holds (scale : List Int) (tonic : Int) (classes : List Int) : Bool :=
  classes.all fun c => scale.any fun degree => Pitch.classOf (tonic + degree) == c

def fitting? (classes : List Int) : Option Text :=
  (List.range 12).findSome? fun (tonic : Nat) =>
    if holds major tonic classes then some (Pitch.className tonic ++ " major")
    else if holds naturalMinor tonic classes then some (Pitch.className tonic ++ " minor")
    else none

/-- The first of the most frequent members. -/
def mostFrequent (all : List Int) (c : Int) (rest : List Int) : Int :=
  rest.foldl (fun best d => if all.count best < all.count d then d else best) c

/-- Negative roots stand for no chord. -/
def ofRoots (roots : List Int) : Text :=
  let classes := (roots.filter (0 ≤ ·)).map Pitch.classOf
  match classes with
  | [] => "unknown"
  | c :: rest =>
      (fitting? classes).getD (Pitch.className (mostFrequent classes c rest) ++ " (estimated)")

variable {α : Type} [Quantity α]

/-- The root of each sonority in turn. -/
def roots (notes : List (Note α)) : List Int :=
  (Note.sonorities (Note.sort notes)).map fun group => (Chord.ofPitches (group.map (·.pitch))).root

end MusicPart.Key
