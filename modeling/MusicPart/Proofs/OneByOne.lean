import MusicPart.Proofs.Accounting
import MusicPart.Proofs.Retiming

/-!
# Notes kept one by one

The monophonic form walks over the notes in the order of onset and pitch and drops a note that
begins too soon after the last one it kept. The notes kept change in nothing but their durations,
which become no longer, each is over when the next one begins, and a second walk finds nothing to
change.
-/

namespace MusicPart.Note

/-! ### The walk -/

section Walk

variable {α : Type} [Quantity α]

/-- The notes that a walk has kept and those that it has dropped, in the order it came to them. -/
structure Walked (α : Type) where
  kept : List (Note α)
  dropped : List (Note α)

/-- Drops a note whose onset is less than a shortest note after that of the last note kept. -/
def Walked.next (w : Walked α) (n : Note α) : Walked α :=
  if w.kept.getLast?.any fun last => n.start - last.start < shortest - slack then
    { w with dropped := w.dropped ++ [n] }
  else { w with kept := w.kept ++ [n] }

def walk (notes : List (Note α)) : Walked α := notes.foldl Walked.next ⟨[], []⟩

/-- A walk goes on with the last onset it has kept. -/
theorem foldl_next (w : Walked α) (notes : List (Note α)) : notes.foldl Walked.next w =
    ⟨w.kept ++ apart (w.kept.getLast?.map (·.start)) notes,
      w.dropped ++ crowding (w.kept.getLast?.map (·.start)) notes⟩ := by
  induction notes generalizing w with
  | nil => simp [apart, crowding]
  | cons n notes ih =>
      rw [List.foldl_cons, ih, apart, crowding, Option.any_map, Walked.next]
      by_cases hclose : w.kept.getLast?.any fun last => n.start - last.start < shortest - slack
      · simp only [if_pos hclose, List.append_assoc, List.singleton_append]
      · simp only [if_neg hclose, List.append_assoc, List.singleton_append, List.getLast?_concat,
          Option.map_some]

theorem walk_eq (notes : List (Note α)) :
    walk notes = ⟨apart none notes, crowding none notes⟩ := foldl_next ⟨[], []⟩ notes

end Walk

/-! ### What a second walk finds -/

/-- The second note begins far enough after the first one, which is over by then. -/
structure OneByOne (a b : Note Rat) : Prop where
  spaced : Spaced a b
  finish_le : a.finish ≤ b.start + slack

theorem Spaced.start_lt {a b : Note Rat} (h : Spaced a b) : a.start < b.start := by
  rw [Spaced, shortest_eq, slack_eq] at h
  linarith

theorem sortByPitch_eq_self {notes : List (Note Rat)} (h : notes.Pairwise Spaced) :
    sortByPitch notes = notes := by
  refine List.mergeSort_of_pairwise (h.imp fun {a b} hab => ?_)
  have hlt := hab.start_lt
  simp [hlt.ne', hlt.le]

theorem apart_eq_self {notes : List (Note Rat)} (h : notes.Pairwise Spaced) {last : Option Rat}
    (hlast : ∀ t ∈ last, ∀ n ∈ notes, t + (shortest - slack) ≤ n.start) :
    apart last notes = notes := by
  induction h generalizing last with
  | nil => rfl
  | @cons n rest hn _ ih =>
      have hkept : ¬last.any (fun t => n.start - t < shortest - slack) = true := by
        cases last with
        | none => simp
        | some t =>
            have hfar := hlast t rfl n List.mem_cons_self
            rw [Option.any_some, decide_eq_true_eq, not_lt]
            linarith
      rw [apart, if_neg hkept, ih fun t ht m hm => (Option.mem_some.mp ht) ▸ hn m hm]

theorem crowding_eq_nil {notes : List (Note Rat)} (h : notes.Pairwise Spaced) :
    crowding none notes = [] := by
  have hlength := (apart_append_crowding_perm none notes).length_eq
  rw [apart_eq_self h (by simp), List.length_append] at hlength
  exact List.length_eq_zero_iff.mp (by omega)

section Yield

variable {α : Type} [Quantity α]

theorem start_yield (p : Note α × Option (Note α)) : (yield p).start = p.1.start := by
  rw [yield]
  split
  · rfl
  · split <;> rfl

/-- A note that has given way to the next one gives way no further. -/
theorem yield_yield {n next next' : Note α} (h : next'.start = next.start) :
    yield (yield (n, some next), some next') = yield (n, some next) := by
  simp only [yield, h]
  by_cases hreach : next.start < n.finish
  · rw [if_pos hreach]
    split <;> rfl
  · rw [if_neg hreach, if_neg hreach]

theorem followed_yield (notes : List (Note α)) :
    (followed ((followed notes).map yield)).map yield = (followed notes).map yield := by
  induction notes with
  | nil => rfl
  | cons n rest ih =>
      rw [followed, List.map_cons, followed, List.map_cons, ih]
      cases rest with
      | nil => rfl
      | cons next more => exact congrArg (· :: _) (yield_yield (start_yield (next, more.head?)))

theorem map_start_followed (notes : List (Note α)) :
    ((followed notes).map yield).map (·.start) = notes.map (·.start) := by
  have hstart : (fun n => n.start) ∘ yield = (fun n : Note α => n.start) ∘ Prod.fst :=
    funext start_yield
  rw [List.map_map, hstart, ← List.map_map, map_followed]

end Yield

/-! ### The monophonic form -/

theorem monophonic_oneByOne (notes : List (Note Rat)) (h : ∀ n ∈ notes, shortest ≤ n.duration) :
    (monophonic notes).notes.Pairwise OneByOne := by
  have hshortest : ∀ n ∈ (monophonic notes).notes, shortest ≤ n.duration :=
    (monophonic_trims notes h).shortest_le h
  have hspaced : (monophonic notes).notes.Pairwise Spaced := by
    have hkept := (apart_spaced none _ (sortByPitch_sorted notes) (by simp)).2
    have honsets : ((apart none (sortByPitch notes)).map (·.start)).Pairwise
        fun t u => t + (shortest - slack) ≤ u := List.pairwise_map.mpr hkept
    rw [← map_start_followed, List.pairwise_map] at honsets
    exact honsets
  refine ((monophonic_apart notes h).and hspaced).imp_of_mem fun {a b} _ hb hab => ?_
  obtain ⟨hover, hfar⟩ := hab
  exact ⟨hfar, hover.finish_le hfar.start_lt.le (hshortest b hb)⟩

theorem monophonic_monophonic {notes : List (Note Rat)} (h : ∀ n ∈ notes, shortest ≤ n.duration) :
    (monophonic (monophonic notes).notes).notes = (monophonic notes).notes ∧
      (monophonic (monophonic notes).notes).report.crowded = 0 := by
  have hspaced := (monophonic_oneByOne notes h).imp OneByOne.spaced
  have hsorted := sortByPitch_eq_self hspaced
  have hkept : apart none (monophonic notes).notes = (monophonic notes).notes :=
    apart_eq_self hspaced (by simp)
  constructor
  · calc (monophonic (monophonic notes).notes).notes
        = (followed (apart none (sortByPitch (monophonic notes).notes))).map yield := rfl
      _ = (followed (monophonic notes).notes).map yield := by rw [hsorted, hkept]
      _ = (monophonic notes).notes := followed_yield _
  · change (crowding none (sortByPitch (monophonic notes).notes)).length = 0
    rw [hsorted, crowding_eq_nil hspaced, List.length_nil]

/-- The monophonic form keeps the notes of a walk in the order of onset and pitch, one by one and
with durations that are no longer, counts the others, and has no effect on its own result. -/
theorem monophonic_walk {notes : List (Note Rat)} (h : ∀ n ∈ notes, shortest ≤ n.duration) :
    let walked := walk (sortByPitch notes)
    let result := monophonic notes
    (sortByPitch notes).Perm notes ∧ (sortByPitch notes).Pairwise InPitchOrder ∧
      List.Forall₂ Shortens walked.kept result.notes ∧
      (∀ n ∈ result.notes, shortest ≤ n.duration) ∧
      result.report.crowded = walked.dropped.length ∧
      result.notes.Pairwise OneByOne ∧
      (monophonic result.notes).notes = result.notes ∧
      (monophonic result.notes).report.crowded = 0 := by
  rw [walk_eq]
  have hsub := (apart_sublist none (sortByPitch notes)).subset
  refine ⟨sortByPitch_perm notes, sortByPitch_inOrder notes, ?kept, ?shortest, rfl, ?order, ?again⟩
  case kept =>
    exact followed_shortens _ fun n hn => h n ((sortByPitch_perm notes).mem_iff.mp (hsub hn))
  case shortest => exact (monophonic_trims notes h).shortest_le h
  case order => exact monophonic_oneByOne notes h
  case again => exact monophonic_monophonic h

/-- A note over one that is still held, one that begins too soon after it, and a last one that
begins just when the shortest note is over. -/
def crowdedTones : List (Note Rat) :=
  [⟨0, 4, 60, 80, 1, []⟩, ⟨1, 2, 64, 80, 1, []⟩, ⟨33 / 32, 2, 67, 80, 1, []⟩,
    ⟨17 / 16, 1, 62, 80, 1, []⟩]

theorem crowdedTones_monophonic : (∀ n ∈ crowdedTones, shortest ≤ n.duration) ∧
    (monophonic crowdedTones).notes.Pairwise OneByOne ∧
    (monophonic crowdedTones).report.crowded = (walk (sortByPitch crowdedTones)).dropped.length := by
  have hshortest : ∀ n ∈ crowdedTones, shortest ≤ n.duration := by
    simp [crowdedTones]
    norm_num
  obtain ⟨-, -, -, -, hcrowded, horder, -⟩ := monophonic_walk hshortest
  exact ⟨hshortest, horder, hcrowded⟩

end MusicPart.Note
