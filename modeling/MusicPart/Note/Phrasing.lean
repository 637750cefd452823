import MusicPart.Instrument
import MusicPart.Note.Intake

/-!
# Phrasing

Short articulations are held to a longest duration. Winds split a note that outlasts a breath, and
strings, in an arrangement, one that outlasts a bow. The pieces start a breath or a bow apart; all
but the last leave a gap, and the last one ends with the note.
-/

namespace MusicPart

/-- What was done about durations. -/
structure Phrasing where
  capped : Nat := 0
  breaths : Nat := 0
  bows : Nat := 0
  deriving Repr, DecidableEq

namespace Note

variable {α : Type} [Quantity α]

structure Phrased (α : Type) where
  notes : List (Note α)
  report : Phrasing

/-! ### Short articulations -/

/-- The instrument lists its short articulations, or marks them by what drives their dynamics. -/
def isShort (a : Articulations α) (name : Text) : Bool :=
  if name.isEmpty then false
  else if !a.short.isEmpty then a.short.contains (Text.lower name)
  else (a.find? name).any (·.dynamics == Text.ofString "velocity")

def usualLongest : List (Text × α) :=
  [("staccatissimo", 0.25), ("staccato", 0.5), ("spiccato", 0.35), ("pizzicato", 1.0)]

def longest (a : Articulations α) (name : Text) : α :=
  let name := Text.lower name
  match a.longest.find? name with
  | some limit => if 0.0 < limit then limit else (Table.find? name usualLongest).getD 0.5
  | none => (Table.find? name usualLongest).getD 0.5

/-- A note too long for its articulation, or for that of the part if it has none, cut to length. -/
def capped? (a : Articulations α) (general : Text) (n : Note α) : Option (Note α) :=
  let name := if n.tag.isEmpty then general else n.tag
  let duration := Quantity.greater shortest (longest a name)
  if isShort a name && decide (duration < n.duration) then some { n with duration } else none

def capShort (a : Articulations α) (general : Text) (notes : List (Note α)) : Phrased α :=
  ⟨notes.map fun n => (capped? a general n).getD n,
    { capped := notes.countP fun n => (capped? a general n).isSome }⟩

/-! ### Splitting -/

/-- The number of pieces of a note. A tail that would be shorter than the shortest note stays with
the piece before it. -/
def pieceCount (segment : α) (maxPieces : Int) (n : Note α) : Int :=
  let count := Midi.clamp (Json.Value.saturate (Quantity.ceil (n.duration / segment - slack))) 1
    (max 1 maxPieces)
  let tail := n.duration - Quantity.ofInt (count - 1) * segment
  if 1 < count && decide (tail < shortest) then count - 1 else count

def piece (segment gap : α) (count : Int) (n : Note α) (i : Int) : Note α :=
  let start := n.start + Quantity.ofInt i * segment
  let duration := if i + 1 < count then segment - gap else n.finish - start
  { n with start, duration := Quantity.greater shortest duration }

def split (segment gap : α) (maxPieces : Int) (n : Note α) : List (Note α) :=
  if segment ≤ 0.0 || n.duration ≤ segment + slack then [n]
  else
    let count := pieceCount segment maxPieces n
    if count = 1 then [n]
    else (List.range count.toNat).map fun (i : Nat) => piece segment gap count n i

def isSplit (pieces : List (Note α)) : Bool := 1 < pieces.length

def splitBreaths (s : Stamina α) (notes : List (Note α)) : Phrased α :=
  if s.breath ≤ 0.0 then ⟨notes, {}⟩
  else
    let pieces := notes.map (split s.breath (Quantity.greater 0.0 s.breathGap) s.maxPieces)
    ⟨pieces.flatten, { breaths := pieces.countP isSplit }⟩

/-- A bow is never longer than a bar. -/
def splitBows (s : Stamina α) (m : Meter) (notes : List (Note α)) : Phrased α :=
  let bars := Quantity.lesser 1.0 s.bowBars
  if bars ≤ 0.0 then ⟨notes, {}⟩
  else
    let pieces := notes.map (split (bars * m.barLength) (Quantity.greater 0.0 s.bowGap) s.maxPieces)
    ⟨sortByPitch pieces.flatten, { bows := pieces.countP isSplit }⟩

/-! ### All of it -/

def phrase (i : Instrument α) (m : Meter) (general : Text) (arranged : Bool)
    (notes : List (Note α)) : Phrased α :=
  let short := capShort i.articulations general notes
  if i.family == .wind then
    let breaths := splitBreaths i.stamina short.notes
    ⟨breaths.notes, { short.report with breaths := breaths.report.breaths }⟩
  else if i.family == .strings && arranged then
    let bows := splitBows i.stamina m short.notes
    ⟨bows.notes, { short.report with bows := bows.report.bows }⟩
  else short

end Note

end MusicPart
