/-!
# Quantities

Times, durations and controller values are computed in an arithmetic that is left open: binary64
when the program runs, the rational numbers where exact arithmetic is meant. `Quantity` holds what
the two share. Comparisons follow the instance, so a value that is not a number is neither below
nor above a bound, and `clamp`, `lesser` and `greater` say which argument then survives.
-/

namespace MusicPart

class Quantity (α : Type) extends Add α, Sub α, Mul α, Div α, Neg α, LT α, LE α, BEq α,
    OfScientific α where
  decLt : DecidableLT α
  decLe : DecidableLE α
  ofInt : Int → α
  /-- The value nearest to `m * 2 ^ e`. -/
  ofBinary : Nat → Int → α
  infinity? : Option α
  nan? : Option α
  /-- The exact value of a finite quantity. -/
  value? : α → Option Rat

attribute [reducible, instance] Quantity.decLt Quantity.decLe

namespace Quantity

variable {α : Type} [Quantity α]

def isFinite (x : α) : Bool := (value? x).isSome

def lesser (a b : α) : α := if b < a then b else a

def greater (a b : α) : α := if a < b then b else a

def clamp (x low high : α) : α :=
  if x < low then low else if high < x then high else x

def abs (x : α) : α := if x < 0.0 then -x else x

/-! ### Whole numbers -/

def truncate (r : Rat) : Int := r.num.tdiv r.den

/-- The nearest whole number, halves away from zero. -/
def roundHalfAway (r : Rat) : Int :=
  if r < 0 then -(-r + 1 / 2).floor else (r + 1 / 2).floor

/-- The nearest whole number, halves to the even neighbour. -/
def roundHalfEven (r : Rat) : Int :=
  let down := r.floor
  if r - down < 1 / 2 then down
  else if 1 / 2 < r - down then down + 1
  else if down % 2 = 0 then down else down + 1

/-- Applies a rounding to a finite quantity and leaves any other as it is. -/
def mapWhole (f : Rat → Int) (x : α) : α :=
  match value? x with
  | some r => ofInt (f r)
  | none => x

def floor (x : α) : α := mapWhole Rat.floor x

def ceil (x : α) : α := mapWhole Rat.ceil x

def round (x : α) : α := mapWhole roundHalfAway x

/-- The whole part of a finite quantity, and zero for any other. -/
def toInt (x : α) : Int := ((value? x).map truncate).getD 0

/-- Whether a signed word whose least value is `-half` can hold a number. -/
def fitsWord (half n : Int) : Bool := -half ≤ n && n < half

/-- The whole part as a signed word; what does not fit gives the least word. -/
def toWord (half : Int) (x : α) : Int :=
  match (value? x).map truncate with
  | some n => if fitsWord half n then n else -half
  | none => -half

/-- Rounds to a number of decimal places given by the scale, a power of ten. -/
def roundTo (scale x : α) : α := round (x * scale) / scale

end Quantity

end MusicPart
