import Mathlib
import MusicPart.Chord.Label
import MusicPart.Proofs.Numerals
import MusicPart.Proofs.PitchClasses

/-!
# Reading the names of chords

The name of a chord that the table holds, read as a label, gives back the pitch classes of the
chord, but for two kinds of chords. A suffix that begins with a flat is taken for the flat of a root
that has no accidental, and `13` and `m13` also name chords with an eleventh, which these labels
leave out.
-/

namespace MusicPart

/-! ### Cutting -/

namespace Text

theorem cutAtLast?_append {sep : UInt8} {t : Text} (h : sep ∉ t) (s : Text) :
    cutAtLast? sep (s ++ sep :: t) = some (s, t) := by
  have hreverse : sep ∉ t.reverse := fun hmem => h (List.mem_reverse.mp hmem)
  rw [cutAtLast?, List.reverse_append, List.reverse_cons, List.append_assoc,
    List.singleton_append, cutAt?_append hreverse]
  simp

end Text

/-! ### Roots -/

namespace Pitch

open Text

/-- The classes of the notes without an accidental. -/
def naturals : List Int := letters.map (·.2)

/-- An accidental that follows a letter belongs to it. -/
theorem startClass?_natural {root : Int} (h : root ∈ naturals) (t : Text) :
    startClass? (className root ++ t) =
      some (classOf (root + (accidental t).1), (accidental t).2) := by
  simp only [naturals, letters, List.map_cons, List.map_nil, List.mem_cons, List.not_mem_nil,
    or_false] at h
  rcases h with rfl | rfl | rfl | rfl | rfl | rfl | rfl <;> rfl

theorem startClass?_className {root : Nat} (hroot : root < 12) {t : Text}
    (h : (root : Int) ∈ naturals → accidental t = (0, t)) :
    startClass? (className root ++ t) = some ((root : Int), t) := by
  by_cases hnatural : (root : Int) ∈ naturals
  · rw [startClass?_natural hnatural, h hnatural, add_zero, classOf,
      Int.emod_eq_of_lt (by omega) (by omega)]
  · have hsharps : ∀ root < 12, ((root : Nat) : Int) ∉ naturals → root ∈ [1, 3, 6, 8, 10] := by
      decide
    have hsharp := hsharps root hroot hnatural
    simp only [List.mem_cons, List.not_mem_nil, or_false] at hsharp
    rcases hsharp with rfl | rfl | rfl | rfl | rfl <;> rfl

theorem accidental_append {s t : Text} (hs : accidental s = (0, s)) (ht : accidental t = (0, t)) :
    accidental (s ++ t) = (0, s ++ t) := by
  cases s with
  | nil => exact ht
  | cons b s =>
      rw [accidental] at hs
      rw [List.cons_append, accidental]
      split_ifs at hs ⊢ with hsharp hflat
      · cases congrArg Prod.fst hs
      · cases congrArg Prod.fst hs
      · rfl

theorem toNat_classOf (pitch : Int) : ((classOf pitch).toNat : Int) = classOf pitch := by
  rw [classOf]
  omega

theorem className_mem (pitch : Int) : className pitch ∈ classNames := by
  have hlt : (classOf pitch).toNat < classNames.length := by
    rw [classOf, classNames]
    simp only [List.length_cons, List.length_nil]
    omega
  rw [className, List.getD_eq_getElem _ _ hlt]
  exact List.getElem_mem hlt

theorem startClass?_className_nil {c : Int} (hc : 0 ≤ c ∧ c < 12) :
    startClass? (className c) = some (c, []) := by
  obtain ⟨root, rfl⟩ := Int.eq_ofNat_of_zero_le hc.1
  simpa using startClass?_className (t := []) (by omega : root < 12) fun _ => rfl

end Pitch

/-! ### The parts of a name -/

namespace Chord

open Text IntervalSet

/-- The end of a name that tells a bass. -/
def slash (below : Option Int) : Text := below.elim [] fun bass => byte '/' :: Pitch.className bass

/-- The bass if it is not the root. -/
def bassBelow (root : Nat) (bass : Int) : Option Int :=
  if (root : Int) = bass then none else some bass

theorem name_named (root : Nat) (suffix : Text) (bass : Int) :
    (named root suffix bass).name =
      Pitch.className root ++ (suffix ++ slash (bassBelow root bass)) := by
  rw [named, bassBelow]
  by_cases h : (root : Int) = bass
  · simp [h, slash]
  · simp [h, slash]

theorem accidental_slash (below : Option Int) :
    Pitch.accidental (slash below) = (0, slash below) := by
  cases below <;> rfl

theorem isSixNine_eq_false {bass : Text} (h : bass ∈ Pitch.classNames) (suffix : Text) :
    isSixNine (suffix ++ byte '/' :: bass.take 1) = false := by
  have hnine : ∀ name ∈ Pitch.classNames, (byte '/' :: name.take 1).getLast? ≠ some (byte '9') := by
    decide
  have hlast : (suffix ++ byte '/' :: bass.take 1).getLast? ≠ some (byte '9') := by
    rw [List.getLast?_append_of_ne_nil _ (List.cons_ne_nil _ _)]
    exact hnine bass h
  rw [isSixNine, Bool.or_eq_false_iff, beq_eq_false_iff_ne, beq_eq_false_iff_ne]
  exact ⟨fun h => hlast (h ▸ rfl), fun h => hlast (h ▸ rfl)⟩

theorem splitBass_slash {suffix : Text} (h : splitBass suffix = (suffix, none)) {below : Option Int}
    (hbelow : ∀ bass ∈ below, 0 ≤ bass ∧ bass < 12) :
    splitBass (suffix ++ slash below) = (suffix, below) := by
  cases below with
  | none => simpa [slash] using h
  | some bass =>
      have hname := Pitch.className_mem bass
      have hfree : ∀ name ∈ Pitch.classNames, byte '/' ∉ name := by decide
      rw [slash, Option.elim_some, splitBass, cutAtLast?_append (hfree _ hname)]
      simp [isSixNine_eq_false hname, Pitch.startClass?_className_nil (hbelow bass rfl)]

/-! ### Tones -/

/-- The tones of intervals above a root, and then those of the bass. -/
def tonesAbove (root : Int) (intervals : IntervalSet) (below : Option Int) : List Int :=
  let tones := intervals.members.map fun (i : Nat) => Pitch.classOf (root + i)
  tones ++ below.toList.filter (!tones.contains ·)

theorem mem_tonesAbove {root x : Int} {intervals : IntervalSet} {below : Option Int} :
    x ∈ tonesAbove root intervals below ↔
      (∃ i ∈ intervals.members, Pitch.classOf (root + i) = x) ∨ x ∈ below := by
  simp only [tonesAbove, List.mem_append, List.mem_filter, Option.mem_toList, Bool.not_eq_true',
    List.contains_eq_mem, decide_eq_false_iff_not, List.mem_map]
  rw [or_and_left, and_iff_left (em _)]
  rfl

theorem nodup_tonesAbove (root : Int) (intervals : IntervalSet) (below : Option Int) :
    (tonesAbove root intervals below).Nodup := by
  rw [tonesAbove, List.nodup_append']
  refine ⟨?_, ?_, ?_⟩
  · refine List.Nodup.map_on (fun i hi j hj h => ?_) (List.nodup_range.filter _)
    have hi := (mem_members.mp hi).1
    have hj := (mem_members.mp hj).1
    simp only [Pitch.classOf] at h
    omega
  · refine List.Nodup.filter _ ?_
    cases below <;> simp
  · intro x hx hbelow
    simpa [hx] using (List.mem_filter.mp hbelow).2

theorem tonesOfLabel?_eq {label body rest suffix : Text} {root : Int} {below : Option Int}
    {intervals : IntervalSet} (hstrip : strip isBlank label = body)
    (hstart : Pitch.startClass? body = some (root, rest))
    (hsplit : splitBass rest = (suffix, below))
    (hsuffix : (Quality.start? suffix).map (·.intervals) = some intervals) :
    tonesOfLabel? label = some (tonesAbove root intervals below) := by
  simp [tonesOfLabel?, hstrip, hstart, hsplit, hsuffix, tonesAbove]

/-! ### The table -/

def flatFifth : IntervalSet := ofList [0, 4, 6]

/-- The intervals of the later of the two qualities `13`, and of the two `m13`. -/
def fullThirteenths : List IntervalSet :=
  [ofList [0, 4, 7, 10, 14, 17, 21], ofList [0, 3, 7, 10, 14, 17, 21]]

/-- The intervals that the suffix of a quality stands for. -/
def spelt (intervals : IntervalSet) : IntervalSet :=
  if intervals ∈ fullThirteenths then intervals.without (ofList [5]) else intervals

/-- The suffixes of the table have no blank and no bass in them; but for one they do not begin with
an accidental. -/
theorem suffix_spec : ∀ q ∈ Quality.all, q.suffix.any isBlank = false ∧
    splitBass q.suffix = (q.suffix, none) ∧
    (Quality.start? q.suffix).map (·.intervals) = some (spelt q.intervals) ∧
    if q.intervals = flatFifth then q.suffix = "b5"
    else Pitch.accidental q.suffix = (0, q.suffix) := by
  decide +kernel

theorem fullThirteenths_spec : ∀ s ∈ fullThirteenths, 5 ∈ s.members ∧
    (s.without (ofList [5])).members = s.members.filter (· ≠ 5) := by
  decide

/-! ### Reading a name back -/

variable {q : Quality} {root : Nat} {bass : Int} {intervals : IntervalSet}

theorem any_isBlank_name (hq : q ∈ Quality.all) (root : Nat) (bass : Int) :
    (named root q.suffix bass).name.any isBlank = false := by
  have hname (c : Int) : (Pitch.className c).any isBlank = false := by
    have hnames : ∀ name ∈ Pitch.classNames, name.any isBlank = false := by decide
    exact hnames _ (Pitch.className_mem c)
  have hslash (below : Option Int) : (slash below).any isBlank = false := by
    cases below with
    | none => rfl
    | some c =>
        rw [slash, Option.elim_some, List.any_cons, hname]
        rfl
  rw [name_named, List.any_append, List.any_append, hname, (suffix_spec q hq).1, hslash]
  rfl

theorem mem_bassBelow {x : Int} :
    x ∈ bassBelow root bass ↔ (root : Int) ≠ bass ∧ bass = x := by
  rw [bassBelow]
  split_ifs with h <;> simp [h]

theorem bassBelow_range (hbass : 0 ≤ bass ∧ bass < 12) :
    ∀ x ∈ bassBelow root bass, 0 ≤ x ∧ x < 12 := by
  intro x hx
  exact (mem_bassBelow.mp hx).2 ▸ hbass

/-- The suffix of a name is read as it is written unless the root takes its flat. -/
theorem tonesOfLabel?_named (hq : q ∈ Quality.all) (hroot : root < 12)
    (hbass : 0 ≤ bass ∧ bass < 12)
    (hflat : q.intervals = flatFifth → (root : Int) ∉ Pitch.naturals) :
    tonesOfLabel? (named root q.suffix bass).name =
      some (tonesAbove root (spelt q.intervals) (bassBelow root bass)) := by
  obtain ⟨-, hsplit, hintervals, haccidental⟩ := suffix_spec q hq
  have hstart : Pitch.startClass? (named root q.suffix bass).name =
      some ((root : Int), q.suffix ++ slash (bassBelow root bass)) := by
    rw [name_named]
    refine Pitch.startClass?_className hroot fun hnatural => ?_
    rw [if_neg fun h => hflat h hnatural] at haccidental
    exact Pitch.accidental_append haccidental (accidental_slash _)
  exact tonesOfLabel?_eq (strip_eq_self (any_isBlank_name hq root bass)) hstart
    (splitBass_slash hsplit (bassBelow_range hbass)) hintervals

/-- A flat fifth on a natural root is read as a fifth on the flat of that root. -/
theorem tonesOfLabel?_flatFifth (hq : q ∈ Quality.all) (hflat : q.intervals = flatFifth)
    (hroot : (root : Int) ∈ Pitch.naturals) (hbass : 0 ≤ bass ∧ bass < 12) :
    tonesOfLabel? (named root q.suffix bass).name =
      some (tonesAbove (Pitch.classOf (root - 1)) (ofList [0, 7]) (bassBelow root bass)) := by
  obtain ⟨-, -, -, hsuffix⟩ := suffix_spec q hq
  rw [if_pos hflat] at hsuffix
  have hstart : Pitch.startClass? (named root q.suffix bass).name =
      some (Pitch.classOf (root - 1), ofString "5" ++ slash (bassBelow root bass)) := by
    rw [name_named, Pitch.startClass?_natural hroot, hsuffix]
    rfl
  exact tonesOfLabel?_eq (strip_eq_self (any_isBlank_name hq root bass)) hstart
    (splitBass_slash rfl (bassBelow_range hbass)) rfl

/-- The classes of a set are the tones of its intervals above a root. -/
theorem exists_mem_members_above {classes : IntervalSet} (hroot : root < 12) {x : Int} :
    (∃ i ∈ (classes.above root).members, Pitch.classOf (root + i) = x) ↔
      ∃ c ∈ classes.members, (c : Int) = x := by
  simp only [mem_members, above, testBit_ofList, List.mem_map, exists_exists_and_eq_and,
    Pitch.classOf]
  constructor
  · rintro ⟨i, ⟨hi, c, hc, rfl⟩, rfl⟩
    exact ⟨c, hc, by omega⟩
  · rintro ⟨c, hc, rfl⟩
    exact ⟨(c + 12 - root % 12) % 12, ⟨by omega, c, hc, rfl⟩, by omega⟩

/-- Intervals, a root and a bass whose name is read as another chord. -/
def Misread (intervals : IntervalSet) (root bass : Int) : Prop :=
  intervals = flatFifth ∧ root ∈ Pitch.naturals ∨
    intervals ∈ fullThirteenths ∧ bass ≠ Pitch.classOf (root + 5)

/-- The flat of the root is no tone of the chord. -/
theorem not_forall_mem_flatFifth (root : Nat) (below : Option Int) :
    ¬∀ x, x ∈ tonesAbove (Pitch.classOf (root - 1)) (ofList [0, 7]) below ↔
      ∃ i ∈ flatFifth.members, Pitch.classOf (root + i) = x := by
  intro h
  have hroot : Pitch.classOf (Pitch.classOf (root - 1) + (0 : Nat)) ∈
      tonesAbove (Pitch.classOf (root - 1)) (ofList [0, 7]) below :=
    mem_tonesAbove.mpr (.inl ⟨0, by decide, rfl⟩)
  have hmembers : flatFifth.members = [0, 4, 6] := by decide
  obtain ⟨i, hi, hx⟩ := (h _).mp hroot
  simp only [hmembers, List.mem_cons, List.not_mem_nil, or_false, Pitch.classOf] at hi hx
  omega

theorem mem_members_spelt {i : Nat} : i ∈ (spelt intervals).members ↔
    i ∈ intervals.members ∧ (intervals ∈ fullThirteenths → i ≠ 5) := by
  rw [spelt]
  by_cases hfull : intervals ∈ fullThirteenths
  · rw [if_pos hfull, (fullThirteenths_spec intervals hfull).2, List.mem_filter,
      decide_eq_true_eq, forall_prop_of_true hfull]
  · rw [if_neg hfull]
    exact (and_iff_left fun h => absurd h hfull).symm

/-- Of a full thirteenth all tones but the eleventh are read, and the bass. -/
theorem forall_mem_spelt_iff
    (hbass : ∃ i ∈ intervals.members, Pitch.classOf (root + i) = bass) :
    (∀ x, x ∈ tonesAbove root (spelt intervals) (bassBelow root bass) ↔
      ∃ i ∈ intervals.members, Pitch.classOf (root + i) = x) ↔
    (intervals ∈ fullThirteenths → bass = Pitch.classOf (root + 5)) := by
  simp only [mem_tonesAbove, mem_bassBelow, mem_members_spelt]
  constructor
  · intro h hfull
    have heleventh := (fullThirteenths_spec intervals hfull).1
    obtain ⟨i, ⟨hi, hne⟩, hx⟩ | ⟨-, hx⟩ := (h (Pitch.classOf (root + 5))).mpr ⟨5, heleventh, rfl⟩
    · have hlt := (mem_members.mp hi).1
      have hne := hne hfull
      simp only [Pitch.classOf] at hx
      omega
    · exact hx
  · intro heq x
    constructor
    · rintro (⟨i, ⟨hi, -⟩, hx⟩ | ⟨-, hx⟩)
      · exact ⟨i, hi, hx⟩
      · exact hx ▸ hbass
    · rintro ⟨i, hi, hx⟩
      by_cases hlost : intervals ∈ fullThirteenths ∧ i = 5
      · obtain ⟨hfull, rfl⟩ := hlost
        have heleventh := heq hfull
        refine .inr ⟨?_, heleventh.trans hx⟩
        simp only [Pitch.classOf] at heleventh
        omega
      · exact .inl ⟨i, ⟨hi, not_and.mp hlost⟩, hx⟩

/-- A quality on a root is read back from its name, over each of its tones, unless it is
misread. -/
theorem tonesOfLabel?_named_iff (hq : q ∈ Quality.all) (hroot : root < 12)
    (hbass : ∃ i ∈ q.intervals.members, Pitch.classOf (root + i) = bass) :
    ∃ tones, tonesOfLabel? (named root q.suffix bass).name = some tones ∧ tones.Nodup ∧
      ((∀ x, x ∈ tones ↔ ∃ i ∈ q.intervals.members, Pitch.classOf (root + i) = x) ↔
        ¬Misread q.intervals root bass) := by
  have hrange : 0 ≤ bass ∧ bass < 12 := by
    obtain ⟨i, -, rfl⟩ := hbass
    rw [Pitch.classOf]
    omega
  by_cases hflat : q.intervals = flatFifth ∧ (root : Int) ∈ Pitch.naturals
  · refine ⟨_, tonesOfLabel?_flatFifth hq hflat.1 hflat.2 hrange, nodup_tonesAbove _ _ _, ?_⟩
    rw [hflat.1]
    exact iff_of_false (not_forall_mem_flatFifth _ _) (not_not.mpr (.inl ⟨rfl, hflat.2⟩))
  · refine ⟨_, tonesOfLabel?_named hq hroot hrange (not_and.mp hflat), nodup_tonesAbove _ _ _, ?_⟩
    rw [Misread, or_iff_right hflat, forall_mem_spelt_iff hbass, not_and_not_right]

/-! ### Chords of pitches -/

theorem size_ne_one {s : IntervalSet} {i j : Nat} (hi : i ∈ s.members) (hj : j ∈ s.members)
    (hne : i ≠ j) : s.size ≠ 1 := by
  have hmem (k : Nat) (hk : k ∈ s.members) : k ∈ (List.range 16).filter s.testBit := by
    obtain ⟨hlt, hbit⟩ := mem_members.mp hk
    exact List.mem_filter.mpr ⟨List.mem_range.mpr (by omega), hbit⟩
  intro h
  rw [size, List.countP_eq_length_filter] at h
  obtain ⟨k, hk⟩ := List.length_eq_one_iff.mp h
  have hi := hk ▸ hmem i hi
  have hj := hk ▸ hmem j hj
  exact hne ((List.mem_singleton.mp hi).trans (List.mem_singleton.mp hj).symm)

theorem exists_quality_of_tabulated? {classes : IntervalSet} {c : Chord}
    (h : tabulated? classes bass = some c) :
    ∃ root < 12, ∃ q ∈ Quality.all, q.intervals = classes.above root ∧
      c = named root q.suffix bass := by
  obtain ⟨root, hroot, h⟩ := List.exists_of_findSome?_eq_some h
  obtain ⟨q, hq, rfl⟩ := Option.map_eq_some_iff.mp h
  rw [Quality.ofIntervals?] at hq
  have hintervals := List.find?_some hq
  exact ⟨root, (mem_members.mp hroot).1, q, List.mem_of_find?_eq_some hq,
    beq_iff_eq.mp hintervals, rfl⟩

/-- The intervals above a root that some pitches make stand for their classes. -/
theorem exists_mem_members_above_ofPitches {ps : List Int} (hroot : root < 12) {x : Int} :
    (∃ i ∈ ((IntervalSet.ofPitches ps).above root).members, Pitch.classOf (root + i) = x) ↔
      ∃ p ∈ ps, Pitch.classOf p = x := by
  rw [exists_mem_members_above hroot]
  constructor
  · rintro ⟨c, hc, rfl⟩
    exact mem_members_ofPitches.mp hc
  · rintro ⟨p, hp, rfl⟩
    exact ⟨_, mem_members_ofPitches.mpr ⟨p, hp, (Pitch.toNat_classOf p).symm⟩,
      Pitch.toNat_classOf p⟩

theorem size_ofPitches_ne_one {ps : List Int}
    (h : ∃ p ∈ ps, ∃ q ∈ ps, Pitch.classOf p ≠ Pitch.classOf q) :
    (IntervalSet.ofPitches ps).size ≠ 1 := by
  obtain ⟨p, hp, q, hq, hne⟩ := h
  have hmem (r : Int) (hr : r ∈ ps) :
      (Pitch.classOf r).toNat ∈ (IntervalSet.ofPitches ps).members :=
    mem_members_ofPitches.mpr ⟨r, hr, (Pitch.toNat_classOf r).symm⟩
  refine size_ne_one (hmem p hp) (hmem q hq) fun heq => hne ?_
  rw [← Pitch.toNat_classOf p, heq, Pitch.toNat_classOf]

/-- A chord of two classes or more that the table names has that name, and the label of this name
has tones, each once. They are the classes of the chord exactly if it is not misread. -/
theorem tonesOfLabel?_name_iff {ps : List Int} {a : Int} {c : Chord}
    (ha : IsLeast {p | p ∈ ps} a)
    (htwo : ∃ p ∈ ps, ∃ q ∈ ps, Pitch.classOf p ≠ Pitch.classOf q)
    (hc : tabulated? (IntervalSet.ofPitches ps) (Pitch.classOf a) = some c) :
    ofPitches ps = c ∧ ∃ tones, tonesOfLabel? c.name = some tones ∧ tones.Nodup ∧
      ((∀ x, x ∈ tones ↔ ∃ p ∈ ps, Pitch.classOf p = x) ↔
        ¬Misread ((IntervalSet.ofPitches ps).above c.root.toNat) c.root (Pitch.classOf a)) := by
  refine ⟨?_, ?_⟩
  · rw [ofPitches_eq ha, ofClasses, if_neg (size_ofPitches_ne_one htwo), hc]
    rfl
  · obtain ⟨root, hroot, q, hq, hintervals, rfl⟩ := exists_quality_of_tabulated? hc
    have htones (x : Int) : (∃ i ∈ q.intervals.members, Pitch.classOf (root + i) = x) ↔
        ∃ p ∈ ps, Pitch.classOf p = x := by
      rw [hintervals]
      exact exists_mem_members_above_ofPitches hroot
    have hread := tonesOfLabel?_named_iff hq hroot ((htones _).mpr ⟨a, ha.1, rfl⟩)
    simp only [htones] at hread
    rw [hintervals] at hread
    exact hread

def seventhOverThird : List Int := [64, 70, 72, 79]

theorem tonesOfLabel?_seventhOverThird : IsLeast {p | p ∈ seventhOverThird} 64 ∧
    (∃ p ∈ seventhOverThird, ∃ q ∈ seventhOverThird, Pitch.classOf p ≠ Pitch.classOf q) ∧
    tabulated? (IntervalSet.ofPitches seventhOverThird) (Pitch.classOf 64) = some ⟨"C7/E", 0⟩ ∧
    ofPitches seventhOverThird = ⟨"C7/E", 0⟩ ∧
    ∃ tones, tonesOfLabel? "C7/E" = some tones ∧ tones.Nodup ∧
      ((∀ x, x ∈ tones ↔ ∃ p ∈ seventhOverThird, Pitch.classOf p = x) ↔
        ¬Misread ((IntervalSet.ofPitches seventhOverThird).above 0) 0 4) := by
  have hleast : IsLeast {p | p ∈ seventhOverThird} 64 := isLeast_lowest 64 [70, 72, 79]
  have htwo : ∃ p ∈ seventhOverThird, ∃ q ∈ seventhOverThird,
      Pitch.classOf p ≠ Pitch.classOf q := by decide
  have htable : tabulated? (IntervalSet.ofPitches seventhOverThird) (Pitch.classOf 64) =
      some ⟨"C7/E", 0⟩ := by decide +kernel
  exact ⟨hleast, htwo, htable, tonesOfLabel?_name_iff hleast htwo htable⟩

/-- A triad with a flat fifth on C, read as the fifth of its flat. -/
example : ofPitches [60, 64, 66] = ⟨"Cb5", 0⟩ ∧ tonesOfLabel? "Cb5" = some [11, 6] := by
  decide +kernel

end Chord

end MusicPart
