import MusicPart.Quantity

/-!
# Exact quantities

In the rational numbers every quantity is finite and equal to its value.
-/

namespace MusicPart.Exact

instance : Quantity Rat where
  decLt := inferInstance
  decLe := inferInstance
  ofInt n := n
  ofBinary m e := m * (2 : Rat) ^ e
  infinity? := none
  nan? := none
  value? := some

end MusicPart.Exact
