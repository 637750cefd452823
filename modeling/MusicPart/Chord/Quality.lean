import MusicPart.Chord.IntervalSet
import MusicPart.Text

/-!
# Chord qualities

A quality is what follows the root in the name of a chord, with the intervals it stands for. Of
qualities with one set of intervals the first names it, and of those with one suffix the first is
meant by it.
-/

namespace MusicPart

structure Quality where
  suffix : Text
  intervals : IntervalSet
  deriving Repr, DecidableEq

namespace Quality

open IntervalSet

def triads : List Quality :=
  [⟨"", ofList [0, 4, 7]⟩, ⟨"m", ofList [0, 3, 7]⟩, ⟨"dim", ofList [0, 3, 6]⟩,
    ⟨"aug", ofList [0, 4, 8]⟩, ⟨"sus4", ofList [0, 5, 7]⟩, ⟨"sus2", ofList [0, 2, 7]⟩,
    ⟨"sus2sus4", ofList [0, 2, 5, 7]⟩, ⟨"5", ofList [0, 7]⟩, ⟨"(no5)", ofList [0, 4]⟩,
    ⟨"m(no5)", ofList [0, 3]⟩, ⟨"m#5", ofList [0, 3, 8]⟩, ⟨"b5", ofList [0, 4, 6]⟩,
    ⟨"sus2(no5)", ofList [0, 2]⟩, ⟨"sus4(no5)", ofList [0, 5]⟩]

def sevenths : List Quality :=
  [⟨"maj7", ofList [0, 4, 7, 11]⟩, ⟨"m7", ofList [0, 3, 7, 10]⟩, ⟨"7", ofList [0, 4, 7, 10]⟩,
    ⟨"dim7", ofList [0, 3, 6, 9]⟩, ⟨"m7b5", ofList [0, 3, 6, 10]⟩,
    ⟨"7#5", ofList [0, 4, 8, 10]⟩, ⟨"aug7", ofList [0, 4, 8, 10]⟩,
    ⟨"maj7#5", ofList [0, 4, 8, 11]⟩, ⟨"augmaj7", ofList [0, 4, 8, 11]⟩,
    ⟨"mM7", ofList [0, 3, 7, 11]⟩, ⟨"7b5", ofList [0, 4, 6, 10]⟩,
    ⟨"maj7b5", ofList [0, 4, 6, 11]⟩, ⟨"7sus4", ofList [0, 5, 7, 10]⟩,
    ⟨"7sus2", ofList [0, 2, 7, 10]⟩, ⟨"maj7sus4", ofList [0, 5, 7, 11]⟩,
    ⟨"maj7sus2", ofList [0, 2, 7, 11]⟩, ⟨"7(no5)", ofList [0, 4, 10]⟩,
    ⟨"m7(no5)", ofList [0, 3, 10]⟩, ⟨"maj7(no5)", ofList [0, 4, 11]⟩,
    ⟨"mM7(no5)", ofList [0, 3, 11]⟩, ⟨"m7(no3)", ofList [0, 7, 10]⟩,
    ⟨"maj7(no3)", ofList [0, 7, 11]⟩, ⟨"7sus4(no5)", ofList [0, 5, 10]⟩,
    ⟨"7sus2(no5)", ofList [0, 2, 10]⟩, ⟨"dim7M7", ofList [0, 3, 6, 9, 11]⟩]

def sixths : List Quality :=
  [⟨"6", ofList [0, 4, 7, 9]⟩, ⟨"m6", ofList [0, 3, 7, 9]⟩, ⟨"6(no5)", ofList [0, 4, 9]⟩,
    ⟨"m6(no5)", ofList [0, 3, 9]⟩, ⟨"6b5", ofList [0, 4, 6, 9]⟩, ⟨"6sus4", ofList [0, 5, 7, 9]⟩,
    ⟨"6sus2", ofList [0, 2, 7, 9]⟩, ⟨"6/9", ofList [0, 4, 7, 9, 14]⟩,
    ⟨"m6/9", ofList [0, 3, 7, 9, 14]⟩, ⟨"add2", ofList [0, 2, 4, 7]⟩,
    ⟨"add9", ofList [0, 4, 7, 14]⟩, ⟨"madd9", ofList [0, 3, 7, 14]⟩,
    ⟨"add4", ofList [0, 4, 5, 7]⟩, ⟨"add11", ofList [0, 4, 7, 17]⟩,
    ⟨"madd11", ofList [0, 3, 7, 17]⟩, ⟨"add#11", ofList [0, 4, 7, 18]⟩,
    ⟨"add13", ofList [0, 4, 7, 21]⟩, ⟨"madd13", ofList [0, 3, 7, 21]⟩,
    ⟨"addb9", ofList [0, 1, 7]⟩, ⟨"addb2", ofList [0, 1, 4, 7]⟩, ⟨"add#9", ofList [0, 3, 4, 7]⟩,
    ⟨"sus4b9", ofList [0, 1, 5, 7]⟩, ⟨"augadd9", ofList [0, 2, 4, 8]⟩,
    ⟨"augaddb9", ofList [0, 1, 4, 8]⟩, ⟨"7add6", ofList [0, 4, 7, 9, 10]⟩,
    ⟨"m7add6", ofList [0, 3, 7, 9, 10]⟩, ⟨"maj7add6", ofList [0, 4, 7, 9, 11]⟩,
    ⟨"mM7add6", ofList [0, 3, 7, 9, 11]⟩, ⟨"7add11", ofList [0, 4, 7, 10, 17]⟩]

def ninths : List Quality :=
  [⟨"9", ofList [0, 4, 7, 10, 14]⟩, ⟨"m9", ofList [0, 3, 7, 10, 14]⟩,
    ⟨"maj9", ofList [0, 4, 7, 11, 14]⟩, ⟨"mM9", ofList [0, 3, 7, 11, 14]⟩,
    ⟨"7b9", ofList [0, 4, 7, 10, 13]⟩, ⟨"7addb9", ofList [0, 1, 4, 7, 10]⟩,
    ⟨"7#9", ofList [0, 4, 7, 10, 15]⟩, ⟨"m7b9", ofList [0, 3, 7, 10, 13]⟩,
    ⟨"9sus4", ofList [0, 5, 7, 10, 14]⟩, ⟨"9sus2", ofList [0, 2, 7, 10, 14]⟩,
    ⟨"maj9sus4", ofList [0, 5, 7, 11, 14]⟩, ⟨"maj9sus2", ofList [0, 2, 7, 11, 14]⟩,
    ⟨"9b5", ofList [0, 4, 6, 10, 14]⟩, ⟨"9#5", ofList [0, 4, 8, 10, 14]⟩,
    ⟨"aug9", ofList [0, 4, 8, 10, 14]⟩, ⟨"augmaj9", ofList [0, 4, 8, 11, 14]⟩,
    ⟨"dim9", ofList [0, 3, 6, 9, 14]⟩, ⟨"m9b5", ofList [0, 3, 6, 10, 14]⟩,
    ⟨"7b5b9", ofList [0, 4, 6, 10, 13]⟩, ⟨"7b5#9", ofList [0, 4, 6, 10, 15]⟩,
    ⟨"7#5b9", ofList [0, 4, 8, 10, 13]⟩, ⟨"7#5#9", ofList [0, 4, 8, 10, 15]⟩,
    ⟨"7#9add9", ofList [0, 4, 7, 10, 14, 15]⟩, ⟨"7sus4b9", ofList [0, 5, 7, 10, 13]⟩,
    ⟨"maj7#11", ofList [0, 4, 7, 11, 18]⟩, ⟨"7b13", ofList [0, 4, 7, 10, 20]⟩]

def extended : List Quality :=
  [⟨"11", ofList [0, 4, 7, 10, 14, 17]⟩, ⟨"m11", ofList [0, 3, 7, 10, 14, 17]⟩,
    ⟨"maj11", ofList [0, 4, 7, 11, 14, 17]⟩, ⟨"mM11", ofList [0, 3, 7, 11, 14, 17]⟩,
    ⟨"11sus4", ofList [0, 5, 7, 10, 14, 17]⟩, ⟨"m11b5", ofList [0, 3, 6, 10, 14, 17]⟩,
    ⟨"11#11", ofList [0, 4, 7, 10, 14, 18]⟩, ⟨"maj9#11", ofList [0, 4, 7, 11, 14, 18]⟩,
    ⟨"9b13", ofList [0, 4, 7, 10, 14, 20]⟩, ⟨"7b9#11", ofList [0, 4, 7, 10, 13, 18]⟩,
    ⟨"7#9#11", ofList [0, 4, 7, 10, 15, 18]⟩, ⟨"13", ofList [0, 4, 7, 10, 14, 21]⟩,
    ⟨"m13", ofList [0, 3, 7, 10, 14, 21]⟩, ⟨"maj13", ofList [0, 4, 7, 11, 14, 21]⟩,
    ⟨"mM13", ofList [0, 3, 7, 11, 14, 21]⟩, ⟨"13sus4", ofList [0, 5, 7, 10, 14, 21]⟩,
    ⟨"13b9", ofList [0, 4, 7, 10, 13, 21]⟩, ⟨"13#9", ofList [0, 4, 7, 10, 15, 21]⟩,
    ⟨"13#11", ofList [0, 4, 7, 10, 14, 18, 21]⟩, ⟨"maj13#11", ofList [0, 4, 7, 11, 14, 18, 21]⟩,
    ⟨"13", ofList [0, 4, 7, 10, 14, 17, 21]⟩, ⟨"m13", ofList [0, 3, 7, 10, 14, 17, 21]⟩]

def all : List Quality := triads ++ sevenths ++ sixths ++ ninths ++ extended

def aliases : List (Text × Text) :=
  [("maj", ""), ("M", ""), ("min", "m"), ("-", "m"), ("M7", "maj7"), ("min7", "m7"), ("-7", "m7"),
    ("o", "dim"), ("o7", "dim7"), ("+", "aug"), ("+7", "aug7"), ("mMaj7", "mM7"), ("sus", "sus4"),
    ("7sus", "7sus4"), ("min9", "m9"), ("M9", "maj9")]

def ofIntervals? (s : IntervalSet) : Option Quality := all.find? (·.intervals == s)

def ofSuffix? (t : Text) : Option Quality := all.find? (·.suffix == t)

/-- A suffix of the table or another spelling of one. -/
def spelled? (t : Text) : Option Quality :=
  ofSuffix? t <|> (aliases.find? (·.1 == t)).bind fun a => ofSuffix? a.2

/-- The quality that the longest spelling at the start of a text stands for. -/
def start? (t : Text) : Option Quality :=
  (List.range (t.length + 1)).reverse.findSome? fun n => spelled? (t.take n)

end Quality

end MusicPart
