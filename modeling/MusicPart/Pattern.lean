import MusicPart.Note.Reader
import MusicPart.Numeral.SixPlaces

/-!
# Patterns

A document can name patterns, which are lists of raw notes, and repeat them from given times on.
Each repeat places every note of its pattern so many times, a step apart. A repeat is held to 256
repetitions and the whole to 4096 notes.
-/

namespace MusicPart

structure Pattern (α : Type) where
  id : Text
  notes : List (Json.Value α)
  length : α

/-- A repeat of a pattern that is known. -/
structure Repeat (α : Type) where
  pattern : Pattern α
  start : α
  step : α
  count : Nat
  /-- Whether more repetitions were asked for. -/
  held : Bool

namespace Pattern

open Json (Value)

variable {α : Type} [Quantity α]

/-! ### Reading patterns -/

def isIdSpace (b : UInt8) : Bool := Text.isBlank b || b == 0x0D || b == 0x0A

/-- Numbers are names too, by the way they are written. -/
def idOf : Option (Value α) → Text
  | some (.number x) => SixPlaces.render x
  | some (.string t) => Text.strip isIdSpace t
  | _ => []

def positive? (v : Option (Value α)) : Option α :=
  (v.bind Value.numeric?).filter fun x => 0.0 < x

/-- The end of a note that tells a readable time and no unreadable duration. -/
def end? (m : Meter) (raw : Value α) : Option α := do
  if !raw.isObject then none
  let start ← Position.onset? m raw
  let duration ← ((raw.first? ["dur_q", "dur"]).map NoteValue.ofValue?).getD (some 0.0)
  return start + duration

def latest? : List α → Option α
  | [] => none
  | t :: ts => some (ts.foldl Quantity.greater t)

def notesOf (raw : Value α) : List (Value α) := ((raw.find? "notes").map (·.elements)).getD []

/-- The length that a pattern names, in quarter notes or in bars, or else the end of its last note,
or else a bar. -/
def lengthOf (m : Meter) (raw : Value α) : α :=
  match positive? (raw.find? "length_q"), positive? (raw.find? "length_bars") with
  | some length, _ => length
  | none, some bars => bars * m.barLength
  | none, none =>
      match latest? ((notesOf raw).filterMap (end? m)) with
      | some t => if 0.0 < t then t else m.barLength
      | none => m.barLength

def read? (m : Meter) (raw : Value α) : Option (Pattern α) := do
  let id := idOf (raw.find? "id")
  match ← raw.find? "notes" with
  | .array notes => if id.isEmpty then none else return ⟨id, notes, lengthOf m raw⟩
  | _ => none

/-! ### Reading repeats -/

def maxRepetitions : Nat := 256

def readRepeat? (m : Meter) (patterns : List (Pattern α)) (raw : Value α) : Option (Repeat α) := do
  if !raw.isObject then none
  let pattern ← patterns.find? (·.id == idOf (raw.find? "pattern"))
  let times ← (← raw.first? ["times", "count"]).numeric?
  if times < 1.0 then none
  let held := decide (Quantity.ofInt (maxRepetitions + 1) ≤ times)
  return {
    pattern, held
    start := (Position.onset? m raw).getD 0.0
    step := (positive? (raw.find? "step_q")).getD pattern.length
    count := if held then maxRepetitions else (Quantity.toInt times).toNat }

/-! ### Placing -/

def timeKeys : List Text := ["start_q", "time_q", "bar", "beat"]

/-- A raw note with its time replaced. -/
def place (raw : Value α) (start : α) : Value α :=
  .object (raw.members.filter (fun m => !timeKeys.contains m.1) ++
    [(Text.ofString "start_q", Value.number start)])

/-- A note whose own time cannot be read is at the start of its pattern. -/
def placeAt (m : Meter) (offset : α) (raw : Value α) : Value α :=
  place raw (offset + (Position.onset? m raw).getD 0.0)

def placements (m : Meter) (r : Repeat α) : List (Value α) :=
  let notes := r.pattern.notes.filter Value.isObject
  (List.range r.count).flatMap fun (k : Nat) =>
    notes.map (placeAt m (r.start + Quantity.ofInt k * r.step))

/-! ### Expansion -/

structure Expansion (α : Type) where
  notes : List (Value α) := []
  skipped : Nat := 0
  truncated : Bool := false

def maxNotes : Nat := 4096

/-- Expands repeats while there is room for so many notes. -/
def expandFrom (m : Meter) (patterns : List (Pattern α)) : Nat → List (Value α) → Expansion α
  | _, [] => {}
  | room, raw :: raws =>
      match readRepeat? m patterns raw with
      | none =>
          let rest := expandFrom m patterns room raws
          { rest with skipped := rest.skipped + 1 }
      | some r =>
          let placed := placements m r
          if room < placed.length then ⟨placed.take room, 0, true⟩
          else
            let rest := expandFrom m patterns (room - placed.length) raws
            ⟨placed ++ rest.notes, rest.skipped, r.held || rest.truncated⟩

def expand (m : Meter) (candidate : Value α) : Expansion α :=
  match candidate.find? "patterns", candidate.find? "repeats" with
  | some (.array patterns), some (.array repeats) =>
      expandFrom m (patterns.filterMap (read? m)) maxNotes repeats
  | _, _ => {}

end Pattern

end MusicPart
