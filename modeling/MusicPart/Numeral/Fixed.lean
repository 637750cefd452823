import MusicPart.Numeral

/-!
# Numbers with fixed places

A quantity is written with so many decimal places, the nearest number of them with halves to the
even neighbour. What is not finite is written as a word. A sign stands also before a negative value
that rounds to zero.
-/

namespace MusicPart.Numeral

open Text

/-- Digits with a point before the last so many of them. -/
def placed (places : Nat) (digits : Text) : Text :=
  let padded := List.replicate (places + 1 - digits.length) (byte '0') ++ digits
  padded.take (padded.length - places) ++ byte '.' :: padded.drop (padded.length - places)

def withSign (negative : Bool) (t : Text) : Text := if negative then byte '-' :: t else t

variable {α : Type} [Quantity α]

/-- A zero has the sign of its reciprocal. -/
def isNegative (x : α) : Bool := x < 0.0 || 1.0 / x < 0.0

def fixed (places : Nat) (x : α) : Text :=
  match Quantity.value? x with
  | some r =>
      let scaled := Quantity.roundHalfEven (r * (Nat.pow 10 places : Nat))
      withSign (isNegative x) (placed places (ofNat scaled.natAbs))
  | none =>
      if x < 0.0 then "-inf" else if 0.0 < x then "inf" else "nan"

end MusicPart.Numeral
