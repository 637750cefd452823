import Mathlib
import MusicPart.Pattern
import MusicPart.Proofs.RawNotes
import MusicPart.Proofs.RoundingErrors

/-!
# Lengths of patterns

A pattern that names no length is as long as its last note, or a bar if that is not later than zero.
The ends of its notes are not told by reading them: only a duration under the first two of its keys
counts, other notes end where they start, and a note counts whether its pitch can be read or not.
The length is that of the notes as they are read if the two ways to tell their ends agree.
-/

namespace MusicPart

open Json (Value)

theorem Json.Value.first?_append {α : Type} (keys others : List Text) (v : Value α) :
    v.first? (keys ++ others) = (v.first? keys).or (v.first? others) := List.findSome?_append

namespace Pattern

variable {α : Type} [Quantity α]

/-! ### The latest end -/

/-- The latest of some ends if it is later than zero, and else a bar. -/
def Lasts (bar : α) (ends : List α) (length : α) : Prop :=
  (length ∈ ends ∧ 0.0 < length ∧ ∀ t ∈ ends, ¬length < t) ∨
    (∀ t ∈ ends, ¬0.0 < t) ∧ length = bar

/-- The ends that are compared. If the first is not a number, then no other one is later. -/
def heard : List α → List α
  | [] => []
  | t :: ts => if t == t then t :: ts else []

section Latest

variable [Quantity.Lawful α]

theorem greater_of_not_isNumber {t : α} (h : ¬Quantity.IsNumber t) (u : α) :
    Quantity.greater t u = t :=
  if_neg fun hlt => h (Quantity.Lawful.isNumber_of_lt hlt).1

theorem foldl_greater_of_not_isNumber {t : α} (h : ¬Quantity.IsNumber t) (ts : List α) :
    ts.foldl Quantity.greater t = t := by
  induction ts with
  | nil => rfl
  | cons u ts ih => rw [List.foldl_cons, greater_of_not_isNumber h, ih]

theorem greater_spec {t : α} (h : Quantity.IsNumber t) (u : α) :
    Quantity.IsNumber (Quantity.greater t u) ∧ Quantity.greater t u ∈ [t, u] ∧
      ¬Quantity.greater t u < t ∧ ¬Quantity.greater t u < u := by
  have hself (a : α) : ¬a < a := fun haa => Quantity.Lawful.not_lt_of_lt haa haa
  rw [Quantity.greater]
  split_ifs with hlt
  · exact ⟨(Quantity.Lawful.isNumber_of_lt hlt).2, by simp, Quantity.Lawful.not_lt_of_lt hlt,
      hself u⟩
  · exact ⟨h, by simp, hself t, hlt⟩

/-- A fold over times finds one of them that none is later than. -/
theorem foldl_greater_spec {t : α} (h : Quantity.IsNumber t) (ts : List α) :
    Quantity.IsNumber (ts.foldl Quantity.greater t) ∧ ts.foldl Quantity.greater t ∈ t :: ts ∧
      ∀ u ∈ t :: ts, ¬ts.foldl Quantity.greater t < u := by
  induction ts generalizing t with
  | nil =>
      have hself : ¬t < t := fun htt => Quantity.Lawful.not_lt_of_lt htt htt
      exact ⟨h, List.mem_singleton_self t, List.forall_mem_singleton.mpr hself⟩
  | cons u ts ih =>
      obtain ⟨hnumber, hmem, ht, hu⟩ := greater_spec h u
      obtain ⟨hlast, hin, hnone⟩ := ih hnumber
      rw [List.forall_mem_cons] at hnone
      have htrans {s : α} (hs : ¬Quantity.greater t u < s) :=
        Quantity.Lawful.not_lt_trans hnumber hs hnone.1
      refine ⟨hlast, ?_, List.forall_mem_cons.mpr ⟨htrans ht, List.forall_mem_cons.mpr
        ⟨htrans hu, hnone.2⟩⟩⟩
      rw [List.foldl_cons]
      rcases List.mem_cons.mp hin with hin | hin
      · rw [hin]
        exact (List.cons_subset.mpr ⟨List.mem_cons_self, by simp⟩ : [t, u] ⊆ t :: u :: ts) hmem
      · exact List.mem_cons_of_mem _ (List.mem_cons_of_mem _ hin)

theorem lasts_latest? (bar : α) (ends : List α) : Lasts bar (heard ends)
    (match latest? ends with
      | some t => if 0.0 < t then t else bar
      | none => bar) := by
  cases ends with
  | nil => exact .inr ⟨List.forall_mem_nil _, rfl⟩
  | cons t ts =>
      rw [latest?]
      dsimp only
      by_cases ht : Quantity.IsNumber t
      · obtain ⟨hnumber, hmem, hnone⟩ := foldl_greater_spec ht ts
        have hheard : heard (t :: ts) = t :: ts := if_pos ht
        rw [hheard]
        split_ifs with hpos
        · exact .inl ⟨hmem, hpos, hnone⟩
        · exact .inr ⟨fun u hu => Quantity.Lawful.not_lt_trans hnumber (hnone u hu) hpos, rfl⟩
      · have hheard : heard (t :: ts) = [] := if_neg ht
        rw [hheard, foldl_greater_of_not_isNumber ht,
          if_neg fun hlt => ht (Quantity.Lawful.isNumber_of_lt hlt).2]
        exact .inr ⟨List.forall_mem_nil _, rfl⟩

omit [Quantity.Lawful α] in
theorem heard_of_forall {ends : List α} (h : ∀ t ∈ ends, Quantity.IsNumber t) :
    heard ends = ends := by
  cases ends with
  | nil => rfl
  | cons t ts => exact if_pos (h t List.mem_cons_self)

end Latest

/-! ### The ends of notes -/

/-- The end of a note as it is read. -/
def readEnd? (m : Meter) (channel : Int) (note : Value α) : Option α :=
  (Note.read? m channel note).map fun n => n.start + n.duration

/-- A note that tells how long it lasts where a pattern looks for it. -/
def TellsLength (note : Value α) : Prop := (note.first? ["dur_q", "dur"]).isSome = true

instance (note : Value α) : Decidable (TellsLength note) :=
  inferInstanceAs (Decidable (_ = true))

/-- A note counts as it is read: not at all if it cannot be read, and else with its duration, or
with none if that makes no difference. -/
def CountsAsRead (m : Meter) (channel : Int) (note : Value α) : Prop :=
  match Note.read? m channel note with
  | none => end? m note = none
  | some n => TellsLength note ∨ n.start + 0.0 = n.start + n.duration

/-- A note that is read ends where it is read to end, or starts if its duration is not looked at. -/
theorem end?_of_read? {m : Meter} {channel : Int} {note : Value α} {n : Note α}
    (h : Note.read? m channel note = some n) : end? m note =
      some (n.start + if TellsLength note then n.duration else 0.0) := by
  obtain ⟨hstart, -⟩ := Note.onset_of_read? h
  obtain ⟨-, hduration⟩ := Note.duration_of_read? h
  rw [end?, Note.isObject_of_read? h, hstart]
  cases hdur : note.first? ["dur_q", "dur"] with
  | none => simp [TellsLength, hdur]
  | some v =>
      have hmore := note.first?_append ["dur_q", "dur"] ["duration"]
      rw [hdur, Option.some_or] at hmore
      simp [TellsLength, hdur, hduration v hmore]

theorem end?_eq_readEnd? {m : Meter} {channel : Int} {note : Value α}
    (h : CountsAsRead m channel note) : end? m note = readEnd? m channel note := by
  rw [CountsAsRead] at h
  rw [readEnd?]
  cases hread : Note.read? m channel note with
  | none =>
      rw [hread] at h
      exact h
  | some n =>
      rw [hread] at h
      rw [end?_of_read? hread, Option.map_some]
      split_ifs with htells
      · rfl
      · exact congrArg some (h.resolve_left htells)

/-! ### Binary64 -/

theorem isNumber_add_of_isFinite {x y : Float} (hx : Quantity.isFinite x = true)
    (hy : Quantity.isFinite y = true) : Quantity.IsNumber (x + y) := by
  obtain ⟨a, ha⟩ := Option.isSome_iff_exists.mp hx
  obtain ⟨b, hb⟩ := Option.isSome_iff_exists.mp hy
  have hattains := Binary64.attains_add_of_value? ha hb
  rw [Binary64.isNumber_iff]
  intro hnan
  rw [hnan] at hattains
  cases hattains with
  | finite hu => cases hu

theorem isNumber_readEnd? {m : Meter} {channel : Int} {note : Value Float} {t : Float}
    (h : readEnd? m channel note = some t) : Quantity.IsNumber t := by
  obtain ⟨n, hn, rfl⟩ := Option.map_eq_some_iff.mp h
  exact isNumber_add_of_isFinite (Note.onset_of_read? hn).2 (Note.duration_of_read? hn).1

/-- A pattern that names no length lasts to the latest end that its notes count with, or a bar. That
is the latest end of its notes as they are read, or a bar, if each of them counts as it is read. -/
theorem lengthOf_lasts (m : Meter) (channel : Int) {raw : Value Float}
    (hquarters : positive? (raw.find? "length_q") = none)
    (hbars : positive? (raw.find? "length_bars") = none) :
    Lasts m.barLength (heard ((notesOf raw).filterMap (end? m))) (lengthOf m raw) ∧
      (∀ note n, Note.read? m channel note = some n → end? m note =
        some (n.start + if TellsLength note then n.duration else 0.0)) ∧
      ((∀ note ∈ notesOf raw, CountsAsRead m channel note) →
        Lasts m.barLength ((notesOf raw).filterMap (readEnd? m channel)) (lengthOf m raw)) := by
  have hlasts : Lasts m.barLength (heard ((notesOf raw).filterMap (end? m))) (lengthOf m raw) := by
    rw [lengthOf, hquarters, hbars]
    exact lasts_latest? m.barLength ((notesOf raw).filterMap (end? m))
  refine ⟨hlasts, fun note n => end?_of_read?, fun hcounts => ?_⟩
  have hends : (notesOf raw).filterMap (end? m) = (notesOf raw).filterMap (readEnd? m channel) :=
    List.filterMap_congr fun note hnote => end?_eq_readEnd? (hcounts note hnote)
  have hnumbers : ∀ t ∈ (notesOf raw).filterMap (readEnd? m channel), Quantity.IsNumber t := by
    intro t ht
    obtain ⟨note, -, hend⟩ := List.mem_filterMap.mp ht
    exact isNumber_readEnd? hend
  rwa [hends, heard_of_forall hnumbers] at hlasts

/-- Two notes, the second with its duration under the given key. -/
def riff (key : Text) : Value Float :=
  .object [("notes", .array [
    .object [("start_q", .number 0.0), ("dur_q", .number 2.0)],
    .object [("start_q", .number 1.0), (key, .number 4.0)]])]

/-- The second note is the last one to end, but only under one of the two keys does it count so. -/
theorem riff_lasts : (∀ key, positive? ((riff key).find? "length_q") = none ∧
      positive? ((riff key).find? "length_bars") = none) ∧
    Lasts 4.0 [2.0, 5.0] (lengthOf ⟨4, 4⟩ (riff "dur")) ∧
    (notesOf (riff "duration")).filterMap (readEnd? ⟨4, 4⟩ 1) = [2.0, 5.0] ∧
    Lasts 4.0 [2.0, 1.0] (lengthOf ⟨4, 4⟩ (riff "duration")) ∧
    lengthOf ⟨4, 4⟩ (riff "duration") = 2.0 := by
  have hquarters (key : Text) : positive? ((riff key).find? "length_q") = none := rfl
  have hbars (key : Text) : positive? ((riff key).find? "length_bars") = none := rfl
  have hcounts : ∀ note ∈ notesOf (riff "dur"), CountsAsRead ⟨4, 4⟩ 1 note :=
    List.forall_mem_cons.mpr ⟨.inl (by decide), List.forall_mem_singleton.mpr (.inl (by decide))⟩
  have hbar : (⟨4, 4⟩ : Meter).barLength = (4.0 : Float) := by decide
  have hread : (notesOf (riff "dur")).filterMap (readEnd? ⟨4, 4⟩ 1) = [2.0, 5.0] := by decide
  have hcounted : (notesOf (riff "duration")).filterMap (end? ⟨4, 4⟩) = [2.0, 1.0] := by decide
  have hheard : heard [2.0, 1.0] = [(2.0 : Float), 1.0] := by decide
  refine ⟨fun key => ⟨hquarters key, hbars key⟩, ?_, by decide, ?_, by decide⟩
  · have hlasts := (lengthOf_lasts ⟨4, 4⟩ 1 (hquarters "dur") (hbars "dur")).2.2 hcounts
    rwa [hbar, hread] at hlasts
  · have hlasts := (lengthOf_lasts ⟨4, 4⟩ 1 (hquarters "duration") (hbars "duration")).1
    rwa [hbar, hcounted, hheard] at hlasts

end Pattern

end MusicPart
