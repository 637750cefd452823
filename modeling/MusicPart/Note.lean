import MusicPart.Text
import MusicPart.Quantity

/-!
# Notes and control events

What a compiled part consists of, with times and durations in quarter notes. Notes are ordered by
onset, then pitch, then channel; sorting keeps the order of notes that agree in all three.
-/

namespace MusicPart

structure Note (α : Type) where
  start : α
  duration : α
  pitch : Int
  velocity : Int
  channel : Int
  /-- The articulation that the note asks for; empty when it asks for none. -/
  tag : Text

structure ControlChange (α : Type) where
  time : α
  controller : Int
  value : Int
  channel : Int

structure Keyswitch (α : Type) where
  time : α
  pitch : Int
  velocity : Int
  channel : Int
  duration : α

structure ProgramChange (α : Type) where
  time : α
  program : Int
  channel : Int

namespace Note

variable {α : Type} [Quantity α]

/-- The shortest duration that a note is given. -/
def shortest : α := 0.0625

/-- The silence that a note leaves before the onset that cut it short. -/
def gap : α := 0.0625

/-- Onsets within this distance of the first one sound together. -/
def together : α := 0.05

/-- Differences of times below this are taken for rounding. -/
def slack : α := 1e-9

def finish (n : Note α) : α := n.start + n.duration

def precedes (a b : Note α) : Bool :=
  if a.start != b.start then a.start < b.start
  else if a.pitch != b.pitch then a.pitch < b.pitch
  else a.channel < b.channel

def sort (notes : List (Note α)) : List (Note α) := notes.mergeSort fun a b => !precedes b a

def sortByStart (notes : List (Note α)) : List (Note α) :=
  notes.mergeSort fun a b => !decide (b.start < a.start)

/-- Notes grouped by onset, each group reaching as far as `together` from its first note. -/
def sonorities : List (Note α) → List (List (Note α))
  | [] => []
  | n :: notes =>
      let near := notes.takeWhile fun m => !decide (together < m.start - n.start)
      (n :: near) :: sonorities (notes.drop near.length)
termination_by notes => notes.length
decreasing_by simp only [List.length_drop, List.length_cons]; omega

end Note

end MusicPart
