import MusicPart.Position

/-!
# Articulation changes

A document can say at what times a part changes to another articulation.
-/

namespace MusicPart

structure ArticulationChange (α : Type) where
  time : α
  name : Text

namespace ArticulationChange

variable {α : Type} [Quantity α]

def read? (m : Meter) (raw : Json.Value α) : Option (ArticulationChange α) := do
  let name ← (raw.first? ["articulation", "art", "name"]).bind Json.Value.text?
  if name.isEmpty then none
  return ⟨Quantity.greater 0.0 (← Position.read? ["time_q", "start_q"] m raw), name⟩

def sort (cs : List (ArticulationChange α)) : List (ArticulationChange α) :=
  cs.mergeSort fun a b => !decide (b.time < a.time)

def readAll (m : Meter) (raw : Json.Value α) : List (ArticulationChange α) :=
  sort (raw.elements.filterMap (read? m))

end ArticulationChange

end MusicPart
