import MusicPart.Quantity

/-!
# Binary64 quantities

The exact value of a finite `Float` is read off its sign, mantissa and exponent.
-/

namespace MusicPart.Binary64

def value? (x : Float) : Option Rat :=
  match x.toModel.unpack with
  | .zero _ => some 0
  | .finite s m e _ => some (s.apply m * (2 : Rat) ^ e)
  | _ => none

/-- A negative power of two is written with a power of ten below and one of five above, so that
one correctly rounded decimal reading serves both bases. Beyond the exponents of the format the
answer does not depend on the mantissa. -/
def ofBinary (m : Nat) (e : Int) : Float :=
  if m = 0 then 0.0
  else if 1100 < e + m.log2 then 1.0 / 0.0
  else if e + m.log2 < -1100 then 0.0
  else if 0 ≤ e then Float.ofScientific (m <<< e.toNat) false 0
  else Float.ofScientific (m * Nat.pow 5 (-e).toNat) true (-e).toNat

instance : Quantity Float where
  decLt := Float.decLt
  decLe := Float.decLe
  ofInt := Float.ofInt
  ofBinary := ofBinary
  infinity? := some (1.0 / 0.0)
  nan? := some (0.0 / 0.0)
  value? := value?

end MusicPart.Binary64
