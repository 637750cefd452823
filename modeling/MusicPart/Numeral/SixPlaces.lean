import MusicPart.Numeral.Fixed

/-!
# Numbers with six places

A quantity is written after rounding to six decimal places, without trailing zeros and without a
sign on zero. A text holds at most 63 bytes; a longer one is cut, and only what is left after the
cut is looked at for zeros behind a point.
-/

namespace MusicPart.SixPlaces

open Text
open Numeral (placed withSign)

variable {α : Type} [Quantity α]

/-- A number of millionths with a point before the last six digits. -/
def fixed (n : Int) : Text := withSign (n < 0) (placed 6 (ofNat n.natAbs))

def capacity : Nat := 63

def trimZeros (t : Text) : Text :=
  if t.contains (byte '.') then
    let digits := dropEndWhile (· == byte '0') t
    if digits.getLast? == some (byte '.') then digits.dropLast else digits
  else t

/-- Rounding to six places can leave the finite range; the sign of what is left is then all that
is written besides the word. -/
def render (x : α) : Text :=
  if !Quantity.isFinite x then "null"
  else
    let rounded := Quantity.roundTo 1e6 x
    match Quantity.value? rounded with
    | some r => trimZeros ((fixed (Quantity.roundHalfEven (r * 1000000))).take capacity)
    | none => if rounded < 0.0 then "-inf" else "inf"

end MusicPart.SixPlaces
