import MusicPart.Chord.Label
import MusicPart.Note
import MusicPart.Position

/-!
# Chord maps

A chord map says which harmony is intended from a time onwards. It is sorted by time, and no entry
is without tones.
-/

namespace MusicPart

structure Harmony (α : Type) where
  time : α
  /-- Pitch classes, each once. -/
  tones : List Int
  label : Text

namespace Harmony

variable {α : Type} [Quantity α]

/-! ### Reading -/

def wholeClass? (t : Text) : Option Int :=
  match Pitch.startClass? t with
  | some (c, []) => some c
  | _ => none

/-- The class of a note name, a class name or a pitch. -/
def tone? (v : Json.Value α) : Option Int :=
  v.text?.bind (fun t => (Pitch.ofName? t).map Pitch.classOf <|> wholeClass? t) <|>
    (Pitch.ofValue? v).map Pitch.classOf

def distinct (cs : List Int) : List Int :=
  cs.foldl (fun done c => if done.contains c then done else done ++ [c]) []

def toneKeys : List Text := ["chord_tones", "pitch_classes", "tones"]

def listedTones (raw : Json.Value α) : List Int :=
  distinct ((((raw.first? toneKeys).map (·.elements)).getD []).filterMap tone?)

def labelOf (raw : Json.Value α) : Text :=
  ((raw.first? ["chord", "chord_name", "label"]).bind Json.Value.text?).getD []

/-- A question mark stands for a harmony that is not known. -/
def labelTones (label : Text) : List Int :=
  if label.isEmpty || label == Text.ofString "?" then [] else (Chord.tonesOfLabel? label).getD []

/-- A time given directly is not before zero. -/
def time? (m : Meter) (raw : Json.Value α) : Option α :=
  match raw.first? ["time_q", "start_q"] with
  | some time => time.numeric?.map (Quantity.greater 0.0)
  | none => Position.inBars? m raw

def read? (m : Meter) (raw : Json.Value α) : Option (Harmony α) := do
  if !raw.isObject then none
  let time ← time? m raw
  let label := labelOf raw
  let listed := listedTones raw
  let tones := if listed.isEmpty then labelTones label else listed
  if tones.isEmpty then none else return ⟨time, tones, label⟩

def sort (hs : List (Harmony α)) : List (Harmony α) :=
  hs.mergeSort fun a b => !decide (b.time < a.time)

def readMap (m : Meter) (raw : Json.Value α) : List (Harmony α) :=
  sort (raw.elements.filterMap (read? m))

/-! ### Looking up -/

/-- How many harmonies have begun by a time. -/
def begun (map : List (Harmony α)) (time : α) : Nat :=
  (map.takeWhile fun h => h.time ≤ time + Note.slack).length

end Harmony

end MusicPart
