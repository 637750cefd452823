import MusicPart.Midi

/-!
# Dynamic marks

Each mark has a short and a full name, the velocity it stands for, and a bound below which a
velocity is closest to it.
-/

namespace MusicPart

structure DynamicMark where
  short : Text
  full : Text
  velocity : Int
  bound : Int

namespace DynamicMark

def all : List DynamicMark :=
  [⟨"ppp", "pianississimo", 16, 20⟩, ⟨"pp", "pianissimo", 33, 36⟩, ⟨"p", "piano", 49, 52⟩,
    ⟨"mp", "mezzo-piano", 64, 68⟩, ⟨"mf", "mezzo-forte", 80, 84⟩, ⟨"f", "forte", 96, 100⟩,
    ⟨"ff", "fortissimo", 112, 116⟩, ⟨"fff", "fortississimo", 124, 128⟩]

/-- The velocity of a mark, letter case and blanks around it aside. -/
def velocity? (t : Text) : Option Int :=
  let name := Text.lower (Text.trim t)
  (all.find? fun m => m.short == name || m.full == name).map (·.velocity)

def ofVelocity (velocity : Int) : Text :=
  ((all.find? fun m => Midi.clampData velocity < m.bound).map (·.short)).getD "fff"

variable {α : Type} [Quantity α]

/-- The velocity of a mark or a number, not yet within bounds. -/
def velocityOfValue? (v : Json.Value α) : Option Int :=
  v.text?.bind velocity? <|> v.numeric?.map Json.Value.saturate

end DynamicMark

end MusicPart
