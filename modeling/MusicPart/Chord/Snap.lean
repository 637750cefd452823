import MusicPart.Chord.Map

/-!
# Snapping to chords

A note that is no tone of the harmony at its onset moves to the nearest tone within the range. A
note that anticipates the next harmony stays. Of two tones equally near the one in the direction of
the melody is taken, and the lower one where the melody does not rise.
-/

namespace MusicPart

namespace Harmony

variable {α : Type} [Quantity α]

/-- How long before a harmony a note may anticipate it. -/
def pickup : α := 0.5

def anticipates (n : Note α) (next : Option (Harmony α)) : Bool :=
  match next with
  | none => false
  | some h =>
      let lead := h.time - n.start
      decide (0.0 < lead) && decide (lead ≤ pickup) && h.tones.contains (Pitch.classOf n.pitch)

def fits (range : PitchRange) (tones : List Int) (pitch : Int) : Bool :=
  0 ≤ pitch && pitch ≤ 127 && range.contains pitch && tones.contains (Pitch.classOf pitch)

/-- The nearest fitting pitch within an octave, first in the given direction. -/
def nearest? (range : PitchRange) (tones : List Int) (pitch direction : Int) : Option Int :=
  (List.range 12).findSome? fun (i : Nat) =>
    let step := direction * (i + 1)
    [pitch + step, pitch - step].find? (fits range tones)

/-- Without a fitting pitch the range alone decides. -/
def snapped (range : PitchRange) (tones : List Int) (pitch direction : Int) : Int :=
  (nearest? range tones pitch direction).getD
    (Midi.clamp pitch (max 0 range.low) (min 127 range.high))

inductive Move where
  | stay
  | anticipate
  | move (pitch : Int)
  deriving Repr, DecidableEq

/-- What becomes of a note after a note of the pitch `previous`, if there is one. -/
def moveOf (map : List (Harmony α)) (range : PitchRange) (previous : Option Int) (n : Note α) :
    Move :=
  match begun map n.start with
  | 0 => .stay
  | count + 1 =>
      match map[count]? with
      | none => .stay
      | some h =>
          if h.tones.contains (Pitch.classOf n.pitch) then .stay
          else if anticipates n map[count + 1]? then .anticipate
          else
            let rising := previous.any (· < n.pitch)
            let pitch := snapped range h.tones n.pitch (if rising then 1 else -1)
            if pitch = n.pitch then .stay else .move pitch

structure Snapped (α : Type) where
  notes : List (Note α)
  corrections : Nat
  anticipations : Nat

/-- The moves of notes in turn. The melody is that of the pitches before they move. -/
def moves (map : List (Harmony α)) (range : PitchRange) : Option Int → List (Note α) → List Move
  | _, [] => []
  | previous, n :: notes => moveOf map range previous n :: moves map range (some n.pitch) notes

def moved (n : Note α) : Move → Note α
  | .move pitch => { n with pitch }
  | _ => n

def isCorrection : Move → Bool
  | .move _ => true
  | _ => false

def snap (map : List (Harmony α)) (range : PitchRange) (notes : List (Note α)) : Snapped α :=
  let notes := Note.sort notes
  let ms := moves map range none notes
  ⟨List.zipWith moved notes ms, ms.countP isCorrection, ms.countP (· == .anticipate)⟩

end Harmony

end MusicPart
