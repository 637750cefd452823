import MusicPart.Key
import MusicPart.Proofs.PitchClasses
import MusicPart.Proofs.RoundingErrors
import MusicPart.Proofs.SeparateNotes

/-!
# Sonorities

Notes sound together if their onsets lie close after the first one of them. A row of sonorities is
determined by the notes but for the order in each one, which a root does not depend on, so the roots
that are heard do not depend on the order in which the notes are listed.
-/

namespace MusicPart

namespace Quantity

variable {α : Type} [Quantity α]

/-- What both arithmetics obey where notes are grouped by how far their onsets lie apart. -/
class Measured (α : Type) [Quantity α] : Prop extends Ordered α where
  isNumber_sub {a b : α} : isFinite a = true → isFinite b = true → IsNumber (a - b)
  /-- The more is taken away, the less remains. -/
  not_sub_lt_sub_left {a b c : α} : isFinite a = true → isFinite b = true → isFinite c = true →
    ¬b < a → ¬c - a < c - b
  sub_self_le {a : α} : isFinite a = true → a - a ≤ 0.05
  /-- Nothing is within a distance from what is not finite, itself included. -/
  isFinite_of_sub_le {a b : α} : ¬b < a → b - a ≤ 0.05 → isFinite a = true ∧ isFinite b = true

end Quantity

/-! ### Binary64 -/

namespace Binary64

open Float.Model
open Float.Model.UnpackedFloat
open Quantity (IsNumber)

variable {x y z : Float}

theorem not_sub_lt_sub_left (hx : Quantity.isFinite x = true) (hy : Quantity.isFinite y = true)
    (hz : Quantity.isFinite z = true) (h : ¬y < x) : ¬z - x < z - y := by
  obtain ⟨a, ha⟩ := Option.isSome_iff_exists.mp hx
  obtain ⟨b, hb⟩ := Option.isSome_iff_exists.mp hy
  obtain ⟨c, hc⟩ := Option.isSome_iff_exists.mp hz
  rw [lt_iff_of_value? hb ha, not_lt] at h
  exact (attains_sub_of_value? hc hb).not_lt (attains_sub_of_value? hc ha)
    (rounded_mono (sub_le_sub_left h c))

theorem value?_tolerance : Quantity.value? (0.05 : Float) = some (3602879701896397 / 2 ^ 56) := by
  decide +kernel

theorem isFinite_of_sub_le (hxy : ¬y < x) (h : y - x ≤ 0.05) :
    Quantity.isFinite x = true ∧ Quantity.isFinite y = true := by
  obtain ⟨hnumber, -, hnear⟩ := Quantity.Ordered.le_iff.mp h
  obtain ⟨hy, hx⟩ := isNumber_of_sub hnumber
  have hle : x ≤ y := Quantity.Ordered.le_iff.mpr ⟨hx, hy, hxy⟩
  have hfar : unpacked (y - x) ≠ .infinity .positive :=
    fun hinfinite => hnear (lt_of_infinity (value?_eq_some.mp value?_tolerance).1 hinfinite)
  rw [isNumber_iff] at hnumber hx hy
  -- If one of the two is infinite, so is their difference, or it is not a number.
  have hfx : (unpacked x).isFinite = true := by
    refine (infinity_or_isFinite hx).resolve_left ?_
    rintro ⟨s, hs⟩
    cases s with
    | negative => exact hfar ((unpacked_sub_infinity y hs).resolve_left hnumber)
    | positive =>
        rw [unpacked_sub, unpacked_of_infinity_le hs hle, hs] at hnumber
        exact hnumber rfl
  have hfy : (unpacked y).isFinite = true := by
    refine (infinity_or_isFinite hy).resolve_left ?_
    rintro ⟨t, ht⟩
    cases t with
    | negative => exact hxy (infinity_lt ht hfx)
    | positive => exact hfar (unpacked_infinity_sub ht hfx)
  exact ⟨isFinite_iff.mpr hfx, isFinite_iff.mpr hfy⟩

instance : Quantity.Measured Float where
  isNumber_sub ha hb := by
    obtain ⟨a, ha⟩ := Option.isSome_iff_exists.mp ha
    obtain ⟨b, hb⟩ := Option.isSome_iff_exists.mp hb
    exact isNumber_iff.mpr (attains_sub_of_value? ha hb).ne_notANumber
  not_sub_lt_sub_left := not_sub_lt_sub_left
  sub_self_le h := le_of_value? (value?_sub_self h) value?_tolerance (by norm_num)
  isFinite_of_sub_le := isFinite_of_sub_le

end Binary64

instance Exact.instMeasured : Quantity.Measured Rat where
  isNumber_sub _ _ := beq_self_eq_true _
  not_sub_lt_sub_left _ _ _ h := not_lt.mpr (sub_le_sub_left (not_lt.mp h) _)
  sub_self_le _ := by norm_num
  isFinite_of_sub_le _ _ := ⟨rfl, rfl⟩

namespace Note

open Quantity (IsNumber Lawful Ordered Measured)

variable {α : Type} [Quantity α]

/-! ### Notes that sound together -/

/-- The second note belongs to a sonority that begins with the first one. -/
def soundsWith (n m : Note α) : Bool := m.start - n.start ≤ together

/-- The notes in order of onset, in groups that reach as far as `together` from their first ones. -/
structure AreSonorities (notes : List (Note α)) (groups : List (List (Note α))) : Prop where
  perm : groups.flatten.Perm notes
  ordered : groups.flatten.Pairwise fun a b => a.start ≤ b.start
  near : ∀ g ∈ groups, ∃ n ∈ g.head?, ∀ m ∈ g, m.start - n.start ≤ together
  apart : groups.IsChain fun g next =>
    ∀ n ∈ g.head?, ∀ m ∈ next.head?, together < m.start - n.start

section Distances

variable [Measured α] {l m n : Note α} (hl : Quantity.isFinite l.start = true)
  (hm : Quantity.isFinite m.start = true) (hn : Quantity.isFinite n.start = true)

include hm hn

theorem soundsWith_iff : n.soundsWith m = true ↔ ¬together < m.start - n.start := by
  have htogether : IsNumber (together : α) :=
    (Ordered.le_iff.mp (Measured.sub_self_le hn)).2.1
  rw [soundsWith, decide_eq_true_eq, Ordered.le_iff]
  exact ⟨fun h => h.2.2, fun h => ⟨Measured.isNumber_sub hm hn, htogether, h⟩⟩

include hl

/-- What begins no later than a note that sounds with the first one sounds with it. -/
theorem soundsWith_of_not_lt (hlm : ¬m.start < l.start) (h : n.soundsWith m = true) :
    n.soundsWith l = true := by
  rw [soundsWith_iff hm hn] at h
  rw [soundsWith_iff hl hn]
  exact Lawful.not_lt_trans (Measured.isNumber_sub hm hn) (Ordered.not_sub_lt_sub hlm) h

/-- What sounds with a note sounds with one that begins later. -/
theorem soundsWith_of_soundsWith (hnl : ¬l.start < n.start) (h : n.soundsWith m = true) :
    l.soundsWith m = true := by
  rw [soundsWith_iff hm hn] at h
  rw [soundsWith_iff hm hl]
  exact Lawful.not_lt_trans (Measured.isNumber_sub hm hn)
    (Measured.not_sub_lt_sub_left hn hl hm hnl) h

end Distances

namespace AreSonorities

variable {notes others : List (Note α)} {g : List (Note α)} {groups : List (List (Note α))}
  {n : Note α} {rest : List (Note α)}

theorem of_perm (h : AreSonorities notes groups) (hothers : notes.Perm others) :
    AreSonorities others groups where
  perm := h.perm.trans hothers
  ordered := h.ordered
  near := h.near
  apart := h.apart

theorem tail (h : AreSonorities notes (g :: groups)) : AreSonorities groups.flatten groups where
  perm := .refl _
  ordered := (List.pairwise_append.mp h.ordered).2.1
  near g hg := h.near g (List.mem_cons_of_mem _ hg)
  apart := h.apart.tail

variable [Measured α]

theorem exists_first (h : AreSonorities notes groups) (hg : g ∈ groups) :
    ∃ n rest, g = n :: rest ∧ ∀ m ∈ g, ¬m.start < n.start ∧ n.soundsWith m = true := by
  obtain ⟨n, hn, hnear⟩ := h.near g hg
  obtain ⟨rest, rfl⟩ := List.head?_eq_some_iff.mp hn
  obtain ⟨hfirst, -⟩ := List.pairwise_cons.mp ((List.pairwise_flatten.mp h.ordered).1 _ hg)
  refine ⟨n, rest, rfl, fun m hm => ⟨?_, decide_eq_true (hnear m hm)⟩⟩
  rcases List.mem_cons.mp hm with rfl | hm
  · exact fun hlt => Lawful.not_lt_of_lt hlt hlt
  · exact Ordered.not_lt_of_le (hfirst m hm)

/-- Only finite onsets are near one another. -/
theorem isFinite (h : AreSonorities notes groups) {m : Note α} (hm : m ∈ notes) :
    Quantity.isFinite m.start = true := by
  obtain ⟨g, hg, hmg⟩ := List.mem_flatten.mp (h.perm.mem_iff.mpr hm)
  obtain ⟨n, rest, -, hnear⟩ := h.exists_first hg
  obtain ⟨hnot, hsounds⟩ := hnear m hmg
  exact (Measured.isFinite_of_sub_le hnot (of_decide_eq_true hsounds)).2

theorem not_lt_first (h : AreSonorities notes ((n :: rest) :: groups)) {m : Note α}
    (hm : m ∈ notes) : ¬m.start < n.start := by
  obtain ⟨hfirst, -⟩ := List.pairwise_cons.mp h.ordered
  rcases List.mem_cons.mp (h.perm.mem_iff.mpr hm) with rfl | hm
  · exact fun hlt => Lawful.not_lt_of_lt hlt hlt
  · exact Ordered.not_lt_of_le (hfirst m hm)

/-- The notes of the later sonorities do not sound with the first one. -/
theorem soundsWith_eq_false (h : AreSonorities notes ((n :: rest) :: groups)) {m : Note α}
    (hm : m ∈ groups.flatten) : n.soundsWith m = false := by
  cases groups with
  | nil => exact absurd hm List.not_mem_nil
  | cons next groups =>
      obtain ⟨l, others, rfl, -⟩ := h.exists_first (List.mem_cons_of_mem _ List.mem_cons_self)
      have hfar : together < l.start - n.start :=
        (List.isChain_cons_cons.mp h.apart).1 n rfl l rfl
      have hfn := h.isFinite (m := n) (h.perm.mem_iff.mp List.mem_cons_self)
      have hfl := h.tail.isFinite (m := l) List.mem_cons_self
      rw [Bool.eq_false_iff]
      intro hsounds
      -- The first note of the next sonority begins no later, so it would sound with `n` too.
      have hsounds := soundsWith_of_not_lt hfl (h.tail.isFinite hm) hfn (h.tail.not_lt_first hm)
        hsounds
      exact (soundsWith_iff hfl hfn).mp hsounds hfar

/-- The first sonority is what sounds with the first note. -/
theorem filter_perm (h : AreSonorities notes ((n :: rest) :: groups)) :
    (notes.filter n.soundsWith).Perm (n :: rest) ∧
      (notes.filter fun m => !n.soundsWith m).Perm groups.flatten := by
  obtain ⟨_, _, hcons, hfirst⟩ := h.exists_first List.mem_cons_self
  obtain ⟨rfl, -⟩ := List.cons.inj hcons
  have hnear : ∀ m ∈ n :: rest, n.soundsWith m = true := fun m hm => (hfirst m hm).2
  have hfar : ∀ m ∈ groups.flatten, n.soundsWith m = false := fun m hm => h.soundsWith_eq_false hm
  have hperm := h.perm.symm
  rw [List.flatten_cons] at hperm
  constructor
  · refine (hperm.filter n.soundsWith).trans (List.Perm.of_eq ?_)
    rw [List.filter_append, List.filter_eq_self.mpr hnear,
      List.filter_eq_nil_iff.mpr (by simpa using hfar), List.append_nil]
  · refine (hperm.filter fun m => !n.soundsWith m).trans (List.Perm.of_eq ?_)
    rw [List.filter_append, List.filter_eq_nil_iff.mpr (by simpa using hnear), List.nil_append,
      List.filter_eq_self.mpr (by simpa using hfar)]

/-- What does not sound with the first note is left to the later sonorities. -/
theorem later (h : AreSonorities notes ((n :: rest) :: groups)) :
    AreSonorities (notes.filter fun m => !n.soundsWith m) groups :=
  h.tail.of_perm h.filter_perm.2.symm

theorem eq_nil (h : AreSonorities [] groups) : groups = [] := by
  cases groups with
  | nil => rfl
  | cons g groups =>
      obtain ⟨n, rest, rfl, -⟩ := h.exists_first List.mem_cons_self
      exact absurd (h.perm.mem_iff.mp List.mem_cons_self) List.not_mem_nil

/-- Whichever of the notes at the earliest onset comes first, the same notes sound with it. -/
theorem soundsWith_eq {n' : Note α} {rest' : List (Note α)} {groups' : List (List (Note α))}
    (h : AreSonorities notes ((n :: rest) :: groups))
    (h' : AreSonorities notes ((n' :: rest') :: groups')) {m : Note α} (hm : m ∈ notes) :
    n.soundsWith m = n'.soundsWith m := by
  have hn : n ∈ notes := h.perm.mem_iff.mp List.mem_cons_self
  have hn' : n' ∈ notes := h'.perm.mem_iff.mp List.mem_cons_self
  exact Bool.eq_iff_iff.mpr
    ⟨soundsWith_of_soundsWith (h.isFinite hn') (h.isFinite hm) (h.isFinite hn) (h.not_lt_first hn'),
      soundsWith_of_soundsWith (h.isFinite hn) (h.isFinite hm) (h.isFinite hn')
        (h'.not_lt_first hn)⟩

/-- The same notes have the same sonorities, but for the order in each of them. -/
theorem forall₂_perm {groups' : List (List (Note α))} (h : AreSonorities notes groups)
    (h' : AreSonorities notes groups') : List.Forall₂ List.Perm groups groups' := by
  induction groups generalizing notes groups' with
  | nil =>
      obtain rfl : notes = [] := h.perm.nil_eq.symm
      rw [h'.eq_nil]
      exact .nil
  | cons g groups ih =>
      obtain ⟨n, rest, rfl, -⟩ := h.exists_first List.mem_cons_self
      cases groups' with
      | nil =>
          have hn : n ∈ notes := h.perm.mem_iff.mp List.mem_cons_self
          exact absurd h'.perm.nil_eq (List.ne_nil_of_mem hn).symm
      | cons g' groups' =>
          obtain ⟨n', rest', rfl, -⟩ := h'.exists_first List.mem_cons_self
          -- The first notes need not be the same, but the two sonorities hold the same notes.
          have hsounds : ∀ m ∈ notes, n.soundsWith m = n'.soundsWith m :=
            fun m hm => h.soundsWith_eq h' hm
          refine .cons ?_ (ih h.later ?_)
          · refine h.filter_perm.1.symm.trans ?_
            rw [List.filter_congr hsounds]
            exact h'.filter_perm.1
          · rw [List.filter_congr fun m hm => congrArg not (hsounds m hm)]
            exact h'.later

end AreSonorities

/-! ### Grouping -/

theorem near_sonorities (notes : List (Note α)) : ∀ g ∈ sonorities notes, ∃ n rest, g = n :: rest ∧
    ∀ m ∈ rest, ¬together < m.start - n.start := by
  fun_induction sonorities notes with
  | case1 => exact fun g hg => absurd hg List.not_mem_nil
  | case2 n notes near ih =>
      intro g hg
      rcases List.mem_cons.mp hg with rfl | hg
      · exact ⟨n, near, rfl, fun m hm => by simpa using List.mem_takeWhile_imp hm⟩
      · exact ih g hg

theorem isChain_sonorities (notes : List (Note α)) : (sonorities notes).IsChain fun g next =>
    ∀ n ∈ g.head?, ∀ m ∈ next.head?, together < m.start - n.start := by
  fun_induction sonorities notes with
  | case1 => exact .nil
  | case2 n notes near ih =>
      refine List.isChain_cons.mpr ⟨fun next hnext l hl m hm => ?_, ih⟩
      obtain rfl : n = l := Option.some_inj.mp hl
      apply together_lt_of_head?
      rw [← head?_sonorities, Option.mem_def.mp hnext]
      exact hm

section Sorted

variable [Measured α] {notes : List (Note α)}

theorem pairwise_start_sort (h : ∀ n ∈ notes, n.isTimed = true) :
    (sort notes).Pairwise fun a b => a.start ≤ b.start := by
  have htimed {n : Note α} (hn : n ∈ sort notes) : n.isTimed = true :=
    h n ((sort_perm notes).mem_iff.mp hn)
  refine (pairwise_sort h).imp_of_mem fun {a b} ha hb hab => ?_
  rw [not_precedes_eq (htimed ha) (htimed hb), thenBy, Bool.and_eq_true] at hab
  exact Ordered.le_iff.mpr ⟨htimed ha, htimed hb, notLaterBy_iff.mp hab.1⟩

theorem areSonorities_sonorities (h : ∀ n ∈ notes, Quantity.isFinite n.start = true) :
    AreSonorities notes (sonorities (sort notes)) where
  perm := by
    rw [sonorities_flatten]
    exact sort_perm notes
  ordered := by
    rw [sonorities_flatten]
    exact pairwise_start_sort fun n hn => Lawful.isNumber_of_isFinite (h n hn)
  near g hg := by
    obtain ⟨n, rest, rfl, hnear⟩ := near_sonorities _ g hg
    have hfinite {m : Note α} (hm : m ∈ n :: rest) : Quantity.isFinite m.start = true := by
      refine h m ((sort_perm notes).mem_iff.mp ?_)
      rw [← sonorities_flatten (sort notes)]
      exact List.mem_flatten_of_mem hg hm
    have hn := hfinite List.mem_cons_self
    refine ⟨n, rfl, fun m hm => ?_⟩
    rcases List.mem_cons.mp hm with rfl | hrest
    · exact Measured.sub_self_le hn
    · exact of_decide_eq_true ((soundsWith_iff (hfinite hm) hn).mpr (hnear m hrest))
  apart := isChain_sonorities _

end Sorted

end Note

namespace Key

open Note

variable {α : Type}

/-! ### The roots that are heard -/

def rootOf (g : List (Note α)) : Int := (Chord.ofPitches (g.map (·.pitch))).root

theorem rootOf_perm {g g' : List (Note α)} (h : g.Perm g') : rootOf g = rootOf g' := by
  rw [rootOf, rootOf, Chord.ofPitches_perm (h.map _)]

theorem exists_classOf_eq_rootOf (n : Note α) (rest : List (Note α)) :
    ∃ m ∈ n :: rest, Pitch.classOf m.pitch = rootOf (n :: rest) := by
  obtain ⟨p, hp, hroot⟩ :=
    Chord.exists_classOf_eq_root (Chord.isLeast_lowest n.pitch (rest.map (·.pitch)))
  obtain ⟨m, hm, rfl⟩ := List.mem_map.mp (List.map_cons ▸ hp : p ∈ (n :: rest).map (·.pitch))
  exact ⟨m, hm, hroot⟩

theorem map_rootOf {groups groups' : List (List (Note α))}
    (h : List.Forall₂ List.Perm groups groups') : groups.map rootOf = groups'.map rootOf := by
  induction h with
  | nil => rfl
  | cons hg _ ih => rw [List.map_cons, List.map_cons, rootOf_perm hg, ih]

variable [Quantity α] [Quantity.Measured α]

theorem roots_eq_map {notes : List (Note α)} {groups : List (List (Note α))}
    (h : AreSonorities notes groups) : roots notes = groups.map rootOf :=
  map_rootOf ((areSonorities_sonorities fun _ hn => h.isFinite hn).forall₂_perm h)

/-- A cadence of two rolled chords, the second of them near the end of the first one. -/
def rolledCadence : List (List (Note Float)) :=
  [[⟨0, 1, 62, 80, 1, []⟩, ⟨0.04, 1, 66, 80, 1, []⟩, ⟨0.04, 1, 69, 80, 1, []⟩],
    [⟨0.08, 1, 67, 80, 1, []⟩, ⟨0.12, 1, 71, 80, 1, []⟩, ⟨0.12, 1, 74, 80, 1, []⟩]]

end Key

end MusicPart
