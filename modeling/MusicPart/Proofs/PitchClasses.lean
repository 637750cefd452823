import Mathlib
import MusicPart.Chord.Naming

/-!
# Pitch classes of a chord

A chord is named for the pitch classes that sound and for the class of the lowest pitch, and for
nothing else of its pitches. Its root is one of these classes, whichever way the name is found.
-/

namespace MusicPart

/-! ### Sets of intervals -/

namespace IntervalSet

theorem testBit_foldl_or (intervals : List Nat) (s : IntervalSet) (i : Nat) :
    (intervals.foldl (fun s x => s ||| (1 <<< (x % 12))) s).testBit i = true ↔
      s.testBit i = true ∨ ∃ x ∈ intervals, x % 12 = i := by
  induction intervals generalizing s with
  | nil => simp
  | cons x intervals ih =>
      rw [List.foldl_cons, ih, Nat.testBit_or, Bool.or_eq_true, Nat.one_shiftLeft,
        Nat.testBit_two_pow, decide_eq_true_eq, List.exists_mem_cons_iff, or_assoc]

theorem testBit_ofList {intervals : List Nat} {i : Nat} :
    (ofList intervals).testBit i = true ↔ ∃ x ∈ intervals, x % 12 = i := by
  rw [ofList, testBit_foldl_or, Nat.zero_testBit]
  simp

theorem mem_members {s : IntervalSet} {i : Nat} : i ∈ s.members ↔ i < 12 ∧ s.testBit i = true := by
  rw [members, List.mem_filter, List.mem_range]

/-- The bits of a set of pitches are their classes. -/
theorem testBit_ofPitches {ps : List Int} {i : Nat} :
    (ofPitches ps).testBit i = true ↔ ∃ p ∈ ps, Pitch.classOf p = i := by
  rw [ofPitches, testBit_ofList]
  simp only [List.mem_map, exists_exists_and_eq_and]
  refine exists_congr fun p => and_congr_right fun _ => ?_
  rw [Pitch.classOf]
  omega

theorem mem_members_ofPitches {ps : List Int} {i : Nat} :
    i ∈ (ofPitches ps).members ↔ ∃ p ∈ ps, Pitch.classOf p = i := by
  rw [mem_members, testBit_ofPitches, and_iff_right_iff_imp]
  rintro ⟨p, -, hp⟩
  rw [Pitch.classOf] at hp
  omega

/-- Pitches of the same classes are one set. -/
theorem ofPitches_eq_ofPitches {ps qs : List Int}
    (h : ∀ c, (∃ p ∈ ps, Pitch.classOf p = c) ↔ ∃ q ∈ qs, Pitch.classOf q = c) :
    ofPitches ps = ofPitches qs :=
  Nat.eq_of_testBit_eq fun i =>
    Bool.eq_iff_iff.mpr (testBit_ofPitches.trans ((h i).trans testBit_ofPitches.symm))

end IntervalSet

namespace Chord

open IntervalSet

/-! ### Roots -/

variable {classes : IntervalSet} {bass : Int} {c : Chord}

theorem root_tabulated? (h : tabulated? classes bass = some c) :
    ∃ root ∈ classes.members, c.root = root := by
  obtain ⟨root, hroot, h⟩ := List.exists_of_findSome?_eq_some h
  obtain ⟨q, -, rfl⟩ := Option.map_eq_some_iff.mp h
  exact ⟨root, hroot, rfl⟩

theorem root_inferred? (h : inferred? classes bass = some c) :
    ∃ root ∈ classes.members, c.root = root := by
  rw [inferred?] at h
  split at h
  · cases h
  · obtain ⟨root, hroot, h⟩ := List.exists_of_findSome?_eq_some h
    obtain ⟨triad, -, rfl⟩ := Option.map_eq_some_iff.mp h
    exact ⟨root, hroot, rfl⟩

/-- Only pairs with a root that sounds compete for the best score. -/
theorem root_nearest? (h : nearest? classes bass = some c) :
    ∃ root ∈ classes.members, c.root = root := by
  refine List.foldlRecOn (motive := fun best : Int × Option Chord => ∀ c, best.2 = some c →
    ∃ root ∈ classes.members, c.root = root) _ _ (fun c h => by cases h) ?_ c h
  intro best ih pair hpair c h
  obtain ⟨root, hroot, hpair⟩ := List.mem_flatMap.mp hpair
  obtain ⟨q, -, rfl⟩ := List.mem_map.mp hpair
  dsimp only at h
  split at h
  · split at h
    · cases h
      exact ⟨root, hroot, rfl⟩
    · exact ih c h
  · exact ih c h

theorem root_ofClasses (classes : IntervalSet) (bass : Int) :
    (ofClasses classes bass).root = bass ∨
      ∃ root ∈ classes.members, (ofClasses classes bass).root = root := by
  rw [ofClasses]
  split
  · exact .inl rfl
  · cases htable : tabulated? classes bass with
    | some c => exact .inr (root_tabulated? htable)
    | none =>
        cases hnearest : nearest? classes bass with
        | some c => exact .inr (root_nearest? hnearest)
        | none =>
            cases hinferred : inferred? classes bass with
            | some c => exact .inr (root_inferred? hinferred)
            | none => exact .inl rfl

/-! ### The lowest pitch -/

theorem isLeast_lowest (p : Int) (ps : List Int) : IsLeast {q | q ∈ p :: ps} (lowest p ps) := by
  have hmin : (fun low q : Int => if q < low then q else low) = min := by
    funext low q
    rw [min_comm, min_def']
    split_ifs <;> omega
  have hlowest : (p :: ps).min? = some (lowest p ps) := by
    rw [lowest, hmin, List.min?_cons']
  exact List.min?_eq_some_iff.mp hlowest

/-- A chord of some pitches is that of their classes over the class of the lowest of them. -/
theorem ofPitches_eq {ps : List Int} {a : Int} (h : IsLeast {p | p ∈ ps} a) :
    ofPitches ps = ofClasses (IntervalSet.ofPitches ps) (Pitch.classOf a) := by
  cases ps with
  | nil => exact absurd h.1 List.not_mem_nil
  | cons p ps => rw [ofPitches, (isLeast_lowest p ps).unique h]

/-- The root of a chord is the class of one of its pitches. -/
theorem exists_classOf_eq_root {ps : List Int} {a : Int} (h : IsLeast {p | p ∈ ps} a) :
    ∃ p ∈ ps, Pitch.classOf p = (ofPitches ps).root := by
  rw [ofPitches_eq h]
  rcases root_ofClasses (IntervalSet.ofPitches ps) (Pitch.classOf a) with hbass | ⟨root, hroot, h'⟩
  · exact ⟨a, h.1, hbass.symm⟩
  · rw [h']
    exact mem_members_ofPitches.mp hroot

theorem ofPitches_perm {ps qs : List Int} (h : ps.Perm qs) : ofPitches ps = ofPitches qs := by
  cases ps with
  | nil => rw [h.nil_eq]
  | cons p ps =>
      have hlowest := isLeast_lowest p ps
      have hmem : {q | q ∈ p :: ps} = {q | q ∈ qs} := Set.ext fun _ => h.mem_iff
      rw [ofPitches_eq hlowest, ofPitches_eq (hmem ▸ hlowest),
        ofPitches_eq_ofPitches fun c => exists_congr fun q => and_congr_left' h.mem_iff]

/-- Pitches with the same classes and with a lowest pitch of the same class are one chord, in any
order and however often they sound, and its root is the class of one of them. -/
theorem ofPitches_congr {ps qs : List Int} {a b : Int} (ha : IsLeast {p | p ∈ ps} a)
    (hb : IsLeast {q | q ∈ qs} b) (hbass : Pitch.classOf a = Pitch.classOf b)
    (hclasses : ∀ c, (∃ p ∈ ps, Pitch.classOf p = c) ↔ ∃ q ∈ qs, Pitch.classOf q = c) :
    ofPitches ps = ofPitches qs ∧ ∃ p ∈ ps, Pitch.classOf p = (ofPitches ps).root := by
  refine ⟨?_, exists_classOf_eq_root ha⟩
  rw [ofPitches_eq ha, ofPitches_eq hb, hbass, ofPitches_eq_ofPitches hclasses]

def closeSeventh : List Int := [55, 59, 62, 65]

/-- The same chord spread, doubled and turned around. -/
def spreadSeventh : List Int := [65, -5, 11, 2, 67, 74]

theorem ofPitches_spreadSeventh : IsLeast {p | p ∈ closeSeventh} 55 ∧
    IsLeast {q | q ∈ spreadSeventh} (-5) ∧ Pitch.classOf 55 = Pitch.classOf (-5) ∧
    (∀ c, (∃ p ∈ closeSeventh, Pitch.classOf p = c) ↔ ∃ q ∈ spreadSeventh, Pitch.classOf q = c) ∧
    ofPitches closeSeventh = ⟨"G7", 7⟩ ∧ ofPitches closeSeventh = ofPitches spreadSeventh ∧
    ∃ p ∈ closeSeventh, Pitch.classOf p = (ofPitches closeSeventh).root := by
  have hclose : IsLeast {p | p ∈ closeSeventh} 55 := isLeast_lowest 55 [59, 62, 65]
  have hspread : IsLeast {q | q ∈ spreadSeventh} (-5) := isLeast_lowest 65 [-5, 11, 2, 67, 74]
  have hclasses (c : Int) : (∃ p ∈ closeSeventh, Pitch.classOf p = c) ↔
      ∃ q ∈ spreadSeventh, Pitch.classOf q = c := by
    simp only [closeSeventh, spreadSeventh, List.exists_mem_cons_iff, List.not_mem_nil, false_and,
      exists_false, or_false, Pitch.classOf]
    omega
  exact ⟨hclose, hspread, rfl, hclasses, by decide +kernel,
    ofPitches_congr hclose hspread rfl hclasses⟩

end Chord

end MusicPart
