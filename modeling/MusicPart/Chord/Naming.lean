import MusicPart.Chord.Quality
import MusicPart.Pitch

/-!
# Naming chords

The name of a chord depends on the pitch classes that sound and on the bass. A set that the table
holds above one of its members is named by it; otherwise the best of all pairs of a root and a
quality, then thirds and fifths decide, and at last only the bass is named.
-/

namespace MusicPart

structure Chord where
  name : Text
  root : Int
  deriving Repr, DecidableEq

namespace Chord

open Text IntervalSet

/-- The name of a chord on a root, with the bass after a slash if it is another note. -/
def named (root : Nat) (suffix : Text) (bass : Int) : Chord :=
  let slash := if (root : Int) == bass then [] else byte '/' :: Pitch.className bass
  ⟨Pitch.className root ++ suffix ++ slash, root⟩

def extensions : List (Nat × Text) :=
  [(1, "b9"), (2, "9"), (3, "#9"), (5, "11"), (6, "#11"), (8, "b13"), (9, "13"), (10, "7"),
    (11, "maj7")]

def extension? (interval : Nat) : Option Text := (extensions.find? (·.1 == interval)).map (·.2)

/-- The extensions among the intervals that a quality does not hold. -/
def added (extra : IntervalSet) : Text :=
  match extra.members.filterMap extension? with
  | [] => []
  | names => "add(" ++ (names.intersperse [byte ',']).flatten ++ ")"

/-! ### The nearest quality -/

/-- Two intervals have to agree, and at most two may be missing and two be left over. -/
def score? (intervals : IntervalSet) (q : Quality) : Option Int :=
  let shared := (common intervals q.intervals).size
  let missing := (without q.intervals intervals).size
  let extra := (without intervals q.intervals).size
  let has i := intervals.contains i
  if shared < 2 || 2 < missing || 2 < extra then none
  else some (10 * shared - 5 * missing - 2 * extra + (if has 0 then 5 else 0)
    + (if has 3 || has 4 then 3 else 0) + (if has 6 || has 7 || has 8 then 2 else 0))

/-- The first pair of the highest score above zero. -/
def nearest? (classes : IntervalSet) (bass : Int) : Option Chord :=
  let pairs := classes.members.flatMap fun root => Quality.all.map fun q => (root, q)
  let best := pairs.foldl (fun (best : Int × Option Chord) (pair : Nat × Quality) =>
    let intervals := classes.above pair.1
    match score? intervals pair.2 with
    | some score =>
        if best.1 < score then
          let suffix := pair.2.suffix ++ added (without intervals pair.2.intervals)
          (score, some (named pair.1 suffix bass))
        else best
    | none => best) (0, none)
  best.2

/-! ### Thirds and fifths -/

/-- The triad that the third, or what stands in for it, and the fifth make. -/
def skeleton? (s : IntervalSet) : Option Text :=
  let major := s.contains 4
  let minor := s.contains 3
  let fifth := s.contains 7
  let low := s.contains 6
  let high := s.contains 8
  if major && fifth then some ""
  else if minor && fifth then some "m"
  else if minor && low then some "dim"
  else if major && high then some "aug"
  else if s.contains 5 && fifth then some "sus4"
  else if s.contains 2 && fifth && !major && !minor then some "sus2"
  else if major && !fifth && !low && !high then some "(no5)"
  else if minor && !fifth && !low then some "m(no5)"
  else if fifth && !major && !minor then some "5"
  else none

def majorSevenths : List (Text × Text) := [("m", "mM7"), ("", "maj7"), ("aug", "augmaj7")]

def minorSevenths : List (Text × Text) :=
  [("dim", "m7b5"), ("m", "m7"), ("", "7"), ("sus4", "7sus4"), ("sus2", "7sus2")]

/-- The name of a triad with a seventh: an entry of the table, or the word at the end. -/
def withSeventh (table : List (Text × Text)) (word : Text) (triad : Text) : Text :=
  ((table.find? (·.1 == triad)).map (·.2)).getD (triad ++ word)

def seventh (s : IntervalSet) (triad : Text) : Text :=
  if s.contains 11 then withSeventh majorSevenths "maj7" triad
  else if s.contains 10 then withSeventh minorSevenths "7" triad
  else triad

def sixth (s : IntervalSet) (t : Text) : Text :=
  if s.contains 9 && !t.contains (byte '7') then t ++ "6" else t

/-- A ninth takes the place of every 7 in the name. -/
def ninth (s : IntervalSet) (t : Text) : Text :=
  if s.contains 2 && !occursIn "sus2" t then
    if t.contains (byte '7') then t.map fun b => if b == byte '7' then byte '9' else b
    else t ++ "add9"
  else t

def inferred? (classes : IntervalSet) (bass : Int) : Option Chord :=
  if classes.size < 2 then none
  else classes.members.findSome? fun root =>
    let s := classes.above root
    (skeleton? s).map fun triad => named root (ninth s (sixth s (seventh s triad))) bass

/-! ### The name -/

def tabulated? (classes : IntervalSet) (bass : Int) : Option Chord :=
  classes.members.findSome? fun root =>
    (Quality.ofIntervals? (classes.above root)).map fun q => named root q.suffix bass

def ofClasses (classes : IntervalSet) (bass : Int) : Chord :=
  if classes.size = 1 then ⟨Pitch.className bass, bass⟩
  else
    ((tabulated? classes bass <|> nearest? classes bass) <|> inferred? classes bass).getD
      ⟨Pitch.className bass ++ "(?)", bass⟩

def lowest (p : Int) (ps : List Int) : Int := ps.foldl (fun low q => if q < low then q else low) p

/-- The chord of some pitches. There is none of no pitches, which is written with root -1. -/
def ofPitches : List Int → Chord
  | [] => ⟨"?", -1⟩
  | p :: ps => ofClasses (IntervalSet.ofPitches (p :: ps)) (Pitch.classOf (lowest p ps))

end Chord

end MusicPart
