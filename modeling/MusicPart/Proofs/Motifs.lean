import MusicPart.Proofs.NoteOrder
import MusicPart.Proofs.Readings
import MusicPart.Proofs.Retagging

/-!
# Motifs

A motif tells how a part begins and not where. Notes that are moved in time or in pitch, all by the
same amount, are sorted alike, those that begin together included, so that the same of them open the
part, and what the motif tells of them is relative to the first one. Only its pitches are as they
sound; they can be found from the first one by its intervals.
-/

namespace MusicPart

open Json (Value)
open Score (elementsOf)

/-! ### Moved notes -/

namespace Note

/-- The note at a time that is later by `c` and at a pitch that is higher by `k`. -/
def moved (c : Rat) (k : Int) (n : Note Rat) : Note Rat :=
  { n with start := n.start + c, pitch := n.pitch + k }

variable (c : Rat) (k : Int)

theorem inOrder_moved (a b : Note Rat) : InOrder (a.moved c k) (b.moved c k) ↔ InOrder a b := by
  simp [InOrder, moved]

/-- Notes that begin together are told apart by pitch and channel, which are moved alike. -/
theorem sort_moved (notes : List (Note Rat)) :
    sort (notes.map (moved c k)) = (sort notes).map (moved c k) := by
  refine (List.map_mergeSort fun a _ b _ => ?_).symm
  rw [Bool.eq_iff_iff, not_precedes_iff, not_precedes_iff, inOrder_moved]

theorem finish_moved (n : Note Rat) : (n.moved c k).finish = n.finish + c :=
  add_right_comm n.start c n.duration

end Note

/-! ### Transposed motifs -/

/-- The object with the value under a key changed, if there is one. -/
def Json.Value.modify {α : Type} (key : Text) (f : Value α → Value α) (v : Value α) : Value α :=
  match v.find? key with
  | some w => v.set key (f w)
  | none => v

namespace Motif

def raised (k : Int) : Value Rat → Value Rat
  | .number x => .number (x + k)
  | v => v

/-- The motif with `k` added to the pitch of each of its notes, and nothing else changed. -/
def transposed (k : Int) (motif : Value Rat) : Value Rat :=
  motif.modify "notes" fun notes => .array (notes.elements.map (·.modify "pitch" (raised k)))

variable (c : Rat) (k : Int)

theorem steps_moved (notes : List (Note Rat)) :
    steps (notes.map (Note.moved c k)) = steps notes :=
  steps_map (Note.moved c k) (fun n m => add_sub_add_right_eq_sub m.pitch n.pitch k) notes

theorem finish_moved (origin : Rat) (notes : List (Note Rat)) :
    finish (origin + c) (notes.map (Note.moved c k)) = finish origin notes + c := by
  induction notes generalizing origin with
  | nil => rfl
  | cons n notes ih =>
      have hlater : Quantity.greater (origin + c) (n.moved c k).finish =
          Quantity.greater origin n.finish + c := by
        rw [Note.finish_moved, Exact.greater_eq_max, Exact.greater_eq_max, max_add_add_right]
      have hrest := ih (Quantity.greater origin n.finish)
      rw [← hlater] at hrest
      exact hrest

theorem opening_moved (count : Nat) (notes : List (Note Rat)) :
    opening count (notes.map (Note.moved c k)) = (opening count notes).map (Note.moved c k) := by
  rw [opening, Note.sort_moved, ← List.map_take, opening]

theorem raised_ofInt (p : Int) : raised k (.ofInt p) = .ofInt (p + k) :=
  congrArg Value.number (Int.cast_add p k).symm

theorem entry_moved (origin : Rat) (n : Note Rat) :
    entry (origin + c) (n.moved c k) = (entry origin n).modify "pitch" (raised k) := by
  have hstart : (n.moved c k).start - (origin + c) = n.start - origin :=
    add_sub_add_right_eq_sub n.start origin c
  have hpitch : (entry origin n).find? "pitch" = some (.ofInt n.pitch) := rfl
  rw [Value.modify, hpitch, entry, hstart]
  dsimp only
  rw [raised_ofInt]
  rfl

theorem transposed_ofNotes (count : Nat) (notes : List (Note Rat)) :
    transposed k (ofNotes count notes) = ofNotes count (notes.map (Note.moved c k)) := by
  rw [ofNotes, ofNotes, opening_moved]
  cases opening count notes with
  | nil => rfl
  | cons n rest =>
      have hnotes : ((n :: rest).map (Note.moved c k)).map (entry (n.start + c)) =
          ((n :: rest).map (entry n.start)).map (·.modify "pitch" (raised k)) := by
        rw [List.map_map, List.map_map]
        exact List.map_congr_left fun m _ => entry_moved c k n.start m
      have hrhythm : ((n :: rest).map (Note.moved c k)).map (fun m => Value.number m.duration) =
          (n :: rest).map fun m => Value.number m.duration := List.map_map
      have hsteps := steps_moved c k (n :: rest)
      have hlength : finish (n.start + c) ((n :: rest).map (Note.moved c k)) - (n.start + c) =
          finish n.start (n :: rest) - n.start := by
        rw [finish_moved, add_sub_add_right_eq_sub]
      have horigin : (n.moved c k).start = n.start + c := rfl
      rw [List.map_cons] at hnotes hrhythm hsteps hlength ⊢
      dsimp only
      rw [horigin, hnotes, hrhythm, hsteps, hlength]
      rfl

/-! ### Pitches and intervals -/

section Tones

variable {α : Type} [Quantity α]

/-- The pitches that a motif tells. -/
def pitches (motif : Value α) : List α :=
  (elementsOf "notes" motif).filterMap fun entry => (entry.find? "pitch").bind Value.numeric?

/-- The intervals that a motif tells. -/
def intervals (motif : Value α) : List α := (elementsOf "intervals" motif).filterMap Value.numeric?

variable (count : Nat) (notes : List (Note α))

theorem pitches_ofNotes : pitches (ofNotes count notes) =
    (opening count notes).map fun n => Quantity.ofInt n.pitch := by
  rw [ofNotes]
  cases opening count notes with
  | nil => rfl
  | cons n rest =>
      change ((n :: rest).map (entry n.start)).filterMap _ = _
      rw [List.filterMap_map]
      exact congrFun List.filterMap_eq_map' (n :: rest)

theorem intervals_ofNotes : intervals (ofNotes count notes) =
    (steps (opening count notes)).map Quantity.ofInt := by
  rw [ofNotes]
  cases opening count notes with
  | nil => rfl
  | cons n rest =>
      change ((steps (n :: rest)).map Value.ofInt).filterMap _ = _
      rw [List.filterMap_map]
      exact congrFun List.filterMap_eq_map' (steps (n :: rest))

end Tones

/-- Where steps lead from a first pitch. -/
def walked : Option Rat → List Rat → List Rat
  | none, _ => []
  | some p, steps => steps.scanl (· + ·) p

theorem scanl_steps (n : Note Rat) (notes : List (Note Rat)) :
    ((steps (n :: notes)).map (Int.cast : Int → Rat)).scanl (· + ·) (n.pitch : Rat) =
      (n :: notes).map fun m => (m.pitch : Rat) := by
  induction notes generalizing n with
  | nil => rfl
  | cons m notes ih =>
      have hstep : (n.pitch : Rat) + ((m.pitch - n.pitch : Int) : Rat) = m.pitch := by
        rw [Int.cast_sub, add_sub_cancel]
      rw [steps, List.map_cons, List.scanl_cons, hstep, ih, List.map_cons, List.map_cons,
        List.map_cons]

/-- A motif stays the same, with its pitches moved along, when all notes are moved by one time and
one interval: its times, durations, velocities, intervals, rhythm and length do not change. Its
pitches are those of the opening notes, and its intervals lead through them from the first one. -/
theorem ofNotes_moved (count : Nat) (notes : List (Note Rat)) (c : Rat) (k : Int) :
    let motif := ofNotes count notes
    ofNotes count (notes.map (Note.moved c k)) = transposed k motif ∧
      pitches motif = (opening count notes).map (fun n => (n.pitch : Rat)) ∧
      walked (pitches motif).head? (intervals motif) = pitches motif := by
  intro motif
  refine ⟨(transposed_ofNotes c k count notes).symm, pitches_ofNotes count notes, ?_⟩
  rw [pitches_ofNotes, intervals_ofNotes]
  cases opening count notes with
  | nil => rfl
  | cons n rest => exact scanl_steps n rest

end Motif

end MusicPart
