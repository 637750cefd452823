import MusicPart.Proofs.BarTimes
import MusicPart.Proofs.LabelTones
import MusicPart.Proofs.TimeOrder
import MusicPart.Proofs.ValidInstruments

/-!
# Harmonies in order

Whatever a chord map is read of, each of its harmonies has tones, which are different classes. The
harmonies are in the order of their times, and none of them comes before the first bar, where their
times are numbers. A harmony that tells its time directly is always at a number, and one that tells
bar and beat is at one unless these clash.
-/

namespace MusicPart.Harmony

open Json (Value)
open Quantity (IsNumber Lawful)

/-! ### Tones -/

/-- Different pitch classes. -/
structure AreClasses (tones : List Int) : Prop where
  nodup : tones.Nodup
  range : ∀ c ∈ tones, 0 ≤ c ∧ c < 12

theorem areClasses_nil : AreClasses [] := ⟨List.nodup_nil, nofun⟩

theorem distinct_concat (cs : List Int) (c : Int) : distinct (cs ++ [c]) =
    if (distinct cs).contains c then distinct cs else distinct cs ++ [c] := by
  rw [distinct, List.foldl_append]
  rfl

theorem areClasses_distinct {cs : List Int} (h : ∀ c ∈ cs, 0 ≤ c ∧ c < 12) :
    AreClasses (distinct cs) := by
  induction cs using List.reverseRecOn with
  | nil => exact areClasses_nil
  | append_singleton cs c ih =>
      obtain ⟨hnodup, hrange⟩ := ih fun d hd => h d (List.mem_append_left _ hd)
      rw [distinct_concat]
      split_ifs with hold
      · exact ⟨hnodup, hrange⟩
      · have hnew : c ∉ distinct cs := by simpa using hold
        refine ⟨by simpa using hnodup.concat hnew, fun d hd => ?_⟩
        rcases List.mem_append.mp hd with hd | hd
        · exact hrange d hd
        · exact h d (List.mem_append_right _ hd)

variable {α : Type} [Quantity α] {m : Meter} {raw : Value α} {h : Harmony α}

theorem range_of_wholeClass? {t : Text} {c : Int} (h : wholeClass? t = some c) :
    0 ≤ c ∧ c < 12 := by
  rw [wholeClass?] at h
  split at h
  · rename_i hstart
    cases h
    exact (Pitch.startClass?_eq_some_iff.mp hstart).range
  · cases h

theorem range_of_tone? {c : Int} (h : tone? raw = some c) : 0 ≤ c ∧ c < 12 := by
  have hclass {o : Option Int} (ho : o.map Pitch.classOf = some c) : 0 ≤ c ∧ c < 12 := by
    obtain ⟨pitch, -, rfl⟩ := Option.map_eq_some_iff.mp ho
    exact Pitch.classOf_range pitch
  rcases (Option.orElse_eq_some _ _ _).mp h with h | ⟨-, h⟩
  · obtain ⟨t, -, h⟩ := Option.bind_eq_some_iff.mp h
    rcases (Option.orElse_eq_some _ _ _).mp h with h | ⟨-, h⟩
    · exact hclass h
    · exact range_of_wholeClass? h
  · exact hclass h

theorem areClasses_listedTones (raw : Value α) : AreClasses (listedTones raw) := by
  refine areClasses_distinct fun c hc => ?_
  obtain ⟨v, -, hv⟩ := List.mem_filterMap.mp hc
  exact range_of_tone? hv

theorem areClasses_labelTones (label : Text) : AreClasses (labelTones label) := by
  rw [labelTones]
  split_ifs
  · exact areClasses_nil
  · cases htones : Chord.tonesOfLabel? label with
    | none => exact areClasses_nil
    | some tones =>
        obtain ⟨root, htells⟩ := Chord.tonesOfLabel?_eq_some_iff.mp htones
        exact ⟨htells.spec.2.1, htells.spec.2.2⟩

theorem tones_of_read? (hread : read? m raw = some h) : h.tones ≠ [] ∧ AreClasses h.tones := by
  obtain ⟨-, hread⟩ := Option.ite_none_left_eq_some.mp hread
  obtain ⟨time, -, hread⟩ := Option.bind_eq_some_iff.mp hread
  obtain ⟨hne, hread⟩ := Option.ite_none_left_eq_some.mp hread
  cases hread
  refine ⟨by simpa using hne, ?_⟩
  dsimp only
  split_ifs
  · exact areClasses_labelTones _
  · exact areClasses_listedTones raw

/-! ### Times -/

/-- A harmony tells its time directly, is at the start, or tells a bar and a beat. -/
theorem time_cases {t : α} (h : time? m raw = some t) : (∃ x, Quantity.greater 0.0 x = t) ∨
    t = 0.0 ∨ ∃ bar beat, Position.ByBar raw bar beat ∧ t = m.timeAt bar beat := by
  rw [time?] at h
  split at h
  · obtain ⟨x, -, hx⟩ := Option.map_eq_some_iff.mp h
    exact .inl ⟨x, hx⟩
  · rename_i hdirect
    rw [Value.first?, List.findSome?_eq_none_iff] at hdirect
    rw [Position.inBars?] at h
    split at h
    · exact .inr (.inl (Option.some.inj h).symm)
    · rename_i htold
      obtain ⟨bar, hbar, h⟩ := Option.bind_eq_some_iff.mp h
      obtain ⟨beat, hbeat, h⟩ := Option.bind_eq_some_iff.mp h
      refine .inr (.inr ⟨bar, beat, ⟨hdirect _ (by simp), hdirect _ (by simp), hbar, hbeat, ?_⟩,
        (Option.some.inj h).symm⟩)
      by_contra hnone
      simp only [Value.has, not_or, Bool.not_eq_true, Option.isSome_eq_false_iff,
        Option.isNone_iff_eq_none] at hnone
      exact htold hnone.1 hnone.2

section Binary64

variable {t : Text} {m : Meter} {v raw : Value Float} {h : Harmony Float}

/-- An object that tells a bar and a beat has a number for its time. -/
def HasTime (m : Meter) (v : Value Float) : Prop :=
  ∀ bar beat, Position.ByBar v bar beat → IsNumber bar ∧ IsNumber beat ∧ ¬m.Clashes bar beat

/-- The harmonies of a map are in order, and none is before the first bar. -/
structure InOrder (m : Meter) (raw : Value Float) : Prop where
  sorted : SortedByTime time (raw.elements.filterMap (read? m)) (readMap m raw)
  zero_le : ∀ h ∈ readMap m raw, 0.0 ≤ h.time

theorem zero_le_greater (x : Float) : 0.0 ≤ Quantity.greater 0.0 x := by
  have hzero : IsNumber (0.0 : Float) := Lawful.isNumber_of_isFinite Lawful.isFinite_zero
  rw [Quantity.greater]
  split
  · rename_i hlt
    exact Quantity.Ordered.le_of_lt hlt
  · exact Quantity.Ordered.le_iff.mpr ⟨hzero, hzero, fun hlt => Lawful.not_lt_of_lt hlt hlt⟩

theorem zero_le_time_iff (hm : Meter.read? t = some m) (hread : read? m v = some h) :
    0.0 ≤ h.time ↔ HasTime m v := by
  have htime := time_of_read? hread
  constructor
  · intro hle bar beat hbar
    rw [hbar.harmony_time?_eq m] at htime
    rw [← Option.some.inj htime] at hle
    exact (Meter.zero_le_timeAt_iff hm).mp hle
  · intro hhas
    rcases time_cases htime with ⟨x, hx⟩ | hzero | ⟨bar, beat, hbar, heq⟩
    · rw [← hx]
      exact zero_le_greater x
    · rw [hzero]
      decide +kernel
    · rw [heq]
      exact (Meter.zero_le_timeAt_iff hm).mpr (hhas bar beat hbar)

theorem mem_readMap : h ∈ readMap m raw ↔ ∃ v ∈ raw.elements, read? m v = some h := by
  rw [readMap, sort, List.mem_mergeSort, List.mem_filterMap]

theorem inOrder_iff (hm : Meter.read? t = some m) : InOrder m raw ↔
    ∀ v ∈ raw.elements, (read? m v).isSome = true → HasTime m v := by
  constructor
  · intro hinOrder v hv hsome
    obtain ⟨h, hread⟩ := Option.isSome_iff_exists.mp hsome
    exact (zero_le_time_iff hm hread).mp (hinOrder.zero_le h (mem_readMap.mpr ⟨v, hv, hread⟩))
  · intro hhas
    have hle : ∀ h ∈ readMap m raw, 0.0 ≤ h.time := by
      intro h hh
      obtain ⟨v, hv, hread⟩ := mem_readMap.mp hh
      exact (zero_le_time_iff hm hread).mpr (hhas v hv (Option.isSome_of_eq_some hread))
    refine ⟨sortedByTime_mergeSort fun h hh => ?_, hle⟩
    exact (Quantity.Ordered.le_iff.mp (hle h (List.mem_mergeSort.mpr hh))).2.1

theorem isFinite_of_numericOr? (hv : v.Finite) {key : Text} {x : Float}
    (h : Position.numericOr? 1.0 (v.find? key) = some x) : Quantity.isFinite x = true := by
  cases hfind : v.find? key with
  | none =>
      rw [hfind] at h
      exact Option.some.inj h ▸ Lawful.isFinite_one
  | some w =>
      rw [hfind] at h
      exact (hv.of_find? hfind).isFinite_numeric? h

theorem hasTime_of_four_le (hm : Meter.read? t = some m) (hunit : 4 ≤ m.unit) (hv : v.Finite) :
    HasTime m v := by
  intro bar beat h
  have hbeat := isFinite_of_numericOr? hv h.beat
  exact ⟨Lawful.isNumber_of_isFinite (isFinite_of_numericOr? hv h.bar),
    Lawful.isNumber_of_isFinite hbeat, Meter.not_clashes hm hunit hbeat⟩

/-- A chord map keeps every harmony that can be read, each with different classes as tones. They
are in order exactly if the times of all of them are numbers, as they are in every document where a
beat is not longer than a quarter. -/
theorem readMap_inOrder_iff (hm : Meter.read? t = some m) (raw : Value Float) :
    (readMap m raw).Perm (raw.elements.filterMap (read? m)) ∧
    (∀ h ∈ readMap m raw, h.tones ≠ [] ∧ AreClasses h.tones) ∧
    (InOrder m raw ↔ ∀ v ∈ raw.elements, (read? m v).isSome = true → HasTime m v) ∧
    (4 ≤ m.unit → raw.Finite → InOrder m raw) := by
  refine ⟨List.mergeSort_perm _ _, fun h hh => ?_, inOrder_iff hm, fun hunit hfinite => ?_⟩
  · obtain ⟨v, -, hread⟩ := mem_readMap.mp hh
    exact tones_of_read? hread
  · refine (inOrder_iff hm).mpr fun v hv _ => hasTime_of_four_le hm hunit fun x hx => ?_
    exact hfinite x (hx.trans (.element hv .here))

def far : Float := 1e308

/-- A chord in a bar that is infinitely late, on a beat that is infinitely early. -/
def farOff : Value Float :=
  .object [("bar", .number far), ("beat", .number (-far)), ("chord", .string "C")]

theorem farOff_not_inOrder : Meter.read? "4/2" = some ⟨4, 2⟩ ∧
    (readMap ⟨4, 2⟩ (.array [farOff])).Perm ([farOff].filterMap (read? ⟨4, 2⟩)) ∧
    ¬InOrder ⟨4, 2⟩ (.array [farOff]) := by
  have hm : Meter.read? "4/2" = some ⟨4, 2⟩ := by decide +kernel
  obtain ⟨hperm, -, hiff, -⟩ := readMap_inOrder_iff hm (.array [farOff])
  have hread : (read? ⟨4, 2⟩ farOff).isSome = true := by decide +kernel
  have htold : Position.ByBar farOff far (-far) := ⟨rfl, rfl, rfl, rfl, .inl rfl⟩
  have hbar : (far - 1.0) * Meter.barLength ⟨4, 2⟩ = 1.0 / 0.0 := by decide +kernel
  have hbeat : (-far - 1.0) * Meter.beatLength ⟨4, 2⟩ = -(1.0 / 0.0) := by decide +kernel
  have hclash : Meter.Clashes ⟨4, 2⟩ far (-far) :=
    ⟨.positive, congrArg Binary64.unpacked hbar, congrArg Binary64.unpacked hbeat⟩
  refine ⟨hm, hperm, fun h => ?_⟩
  exact (hiff.mp h farOff (by simp [Value.elements]) hread _ _ htold).2.2 hclash

end Binary64

end MusicPart.Harmony
