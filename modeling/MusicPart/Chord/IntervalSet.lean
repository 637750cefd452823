/-!
# Sets of intervals

A set of pitch classes, or of intervals above a root, is a number whose bits are its members.
-/

namespace MusicPart

abbrev IntervalSet := Nat

namespace IntervalSet

def contains (s : IntervalSet) (interval : Nat) : Bool := s.testBit interval

/-- Intervals beyond the octave are folded into it. -/
def ofList (intervals : List Nat) : IntervalSet :=
  intervals.foldl (fun s i => s ||| (1 <<< (i % 12))) 0

/-- The members within the octave, in ascending order. -/
def members (s : IntervalSet) : List Nat := (List.range 12).filter s.testBit

def size (s : IntervalSet) : Nat := (List.range 16).countP s.testBit

def common (s t : IntervalSet) : IntervalSet := s &&& t

def without (s t : IntervalSet) : IntervalSet := s ^^^ (s &&& t)

/-- The intervals above a root of a set of pitch classes. -/
def above (s : IntervalSet) (root : Nat) : IntervalSet :=
  ofList (s.members.map fun c => c + 12 - root % 12)

/-- The pitch classes of some pitches. -/
def ofPitches (pitches : List Int) : IntervalSet := ofList (pitches.map fun p => (p % 12).toNat)

end IntervalSet

end MusicPart
