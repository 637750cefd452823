import MusicPart.Chord.Quality
import MusicPart.Pitch

/-!
# Chord labels

A label such as `F#m7b5` or `C/E` begins with a root. What follows its last slash names a bass note,
unless that slash belongs to the qualities `6/9` and `m6/9`.
-/

namespace MusicPart.Chord

open Text

def isSixNine (t : Text) : Bool := t == ofString "6/9" || t == ofString "m6/9"

/-- The suffix and the bass that follow a root. -/
def splitBass (t : Text) : Text × Option Int :=
  match cutAtLast? (byte '/') t with
  | none => (t, none)
  | some (suffix, bass) =>
      if isSixNine (suffix ++ byte '/' :: bass.take 1) then (t, none)
      else (suffix, (Pitch.startClass? bass).map (·.1))

/-- The pitch classes of a label from the root upwards, and then the bass if it is none of them. -/
def tonesOfLabel? (label : Text) : Option (List Int) := do
  let (root, rest) ← Pitch.startClass? (strip isBlank label)
  let (suffix, bass) := splitBass rest
  let intervals := ((Quality.start? suffix).map (·.intervals)).getD (IntervalSet.ofList [0])
  let tones := intervals.members.map fun (i : Nat) => Pitch.classOf (root + i)
  return tones ++ bass.toList.filter (!tones.contains ·)

end MusicPart.Chord
