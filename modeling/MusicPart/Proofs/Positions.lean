import MusicPart.Articulation.Timeline
import MusicPart.Chord.Map
import MusicPart.Curve
import MusicPart.Note.Intake
import MusicPart.Pattern
import MusicPart.Proofs.RawNotes

/-!
# One position, several readers

An object that tells its time by bar and beat alone is read by notes, hits, patterns, repeats,
harmonies, articulation changes and curves, each with a reader of its own. All of them find the same
time, with two exceptions: a point of a curve that tells its beat and not its bar stays at time zero,
and a change whose time is not a number is moved there.
-/

namespace MusicPart

open Json (Value)
open Quantity (IsNumber Lawful)

variable {α : Type} [Quantity α] {m : Meter} {raw : Value α} {bar beat : α}

namespace Position

/-! ### Bars and beats -/

/-- An object tells its time by the bar, the beat or both, and in no other way. Null under the key
of a time tells nothing. -/
structure ByBar (raw : Value α) (bar beat : α) : Prop where
  start : raw.present? "start_q" = none
  time : raw.present? "time_q" = none
  bar : numericOr? 1.0 (raw.find? "bar") = some bar
  beat : numericOr? 1.0 (raw.find? "beat") = some beat
  told : raw.has "bar" = true ∨ raw.has "beat" = true

theorem numeric?_of_numericOr? {v : Option (Value α)} {default x : α}
    (h : numericOr? default v = some x) (hv : v.isSome = true) :
    v.bind Value.numeric? = some x := by
  cases v with
  | none => exact nomatch hv
  | some v => exact h

theorem getD_of_numericOr? {v : Option (Value α)} {default x : α}
    (h : numericOr? default v = some x) : (v.bind Value.numeric?).getD default = x := by
  cases v with
  | none => exact Option.some_inj.mp h
  | some v => exact Option.getD_eq_iff.mpr (Or.inl h)

namespace ByBar

variable (h : ByBar raw bar beat)

include h

theorem inBars?_eq (m : Meter) : inBars? m raw = some (m.timeAt bar beat) := by
  rw [inBars?]
  split
  · rename_i hbar hbeat
    have htold := h.told
    rw [Value.has, Value.has, hbar, hbeat] at htold
    simp at htold
  · rw [h.bar, h.beat]
    rfl

theorem first?_start_time : raw.first? ["start_q", "time_q"] = none := by
  simp [Value.first?, h.start, h.time]

theorem first?_time_start : raw.first? ["time_q", "start_q"] = none := by
  simp [Value.first?, h.start, h.time]

theorem onset?_eq (m : Meter) : onset? m raw = some (m.timeAt bar beat) := by
  rw [onset?, read?, h.first?_start_time]
  exact h.inBars?_eq m

theorem read?_eq (m : Meter) : read? ["time_q", "start_q"] m raw = some (m.timeAt bar beat) := by
  rw [read?, h.first?_time_start]
  exact h.inBars?_eq m

theorem harmony_time?_eq (m : Meter) : Harmony.time? m raw = some (m.timeAt bar beat) := by
  rw [Harmony.time?, h.first?_time_start]
  exact h.inBars?_eq m

/-- Only a curve asks for the bar. -/
theorem curve_time?_eq (m : Meter) :
    Curve.time? m raw = some (if raw.has "bar" then m.timeAt bar beat else 0.0) := by
  rw [Curve.time?, h.first?_time_start]
  by_cases hbar : raw.has "bar" = true
  · rw [numeric?_of_numericOr? h.bar hbar, if_pos hbar, getD_of_numericOr? h.beat]
  · have hnone : raw.find? "bar" = none := by simpa [Value.has] using hbar
    rw [if_neg hbar, hnone]
    rfl

end ByBar

end Position

/-! ### What the readers make of a position -/

theorem Hit.onset_of_values? {v : α × α × Int} (h : Hit.values? m raw = some v) :
    Position.onset? m raw = some v.1 := by
  obtain ⟨start, hstart, h⟩ := Option.bind_eq_some_iff.mp h
  obtain ⟨duration, -, h⟩ := Option.bind_eq_some_iff.mp h
  obtain ⟨velocity, -, h⟩ := Option.bind_eq_some_iff.mp h
  obtain ⟨-, h⟩ | ⟨-, h⟩ := ite_eq_iff.mp h
  · cases h
    exact hstart
  · exact nomatch h

theorem Pattern.start_of_readRepeat? {patterns : List (Pattern α)} {r : Repeat α}
    (h : readRepeat? m patterns raw = some r) : r.start = (Position.onset? m raw).getD 0.0 := by
  obtain ⟨-, h⟩ | ⟨-, h⟩ := ite_eq_iff.mp h
  · exact nomatch h
  · obtain ⟨pattern, -, h⟩ := Option.bind_eq_some_iff.mp h
    obtain ⟨v, -, h⟩ := Option.bind_eq_some_iff.mp h
    obtain ⟨x, -, h⟩ := Option.bind_eq_some_iff.mp h
    obtain ⟨-, h⟩ | ⟨-, h⟩ := ite_eq_iff.mp h
    · exact nomatch h
    · cases h
      rfl

theorem Harmony.time_of_read? {h : Harmony α} (hread : read? m raw = some h) :
    time? m raw = some h.time := by
  obtain ⟨-, hread⟩ | ⟨-, hread⟩ := ite_eq_iff.mp hread
  · exact nomatch hread
  · obtain ⟨time, htime, hread⟩ := Option.bind_eq_some_iff.mp hread
    obtain ⟨-, hread⟩ | ⟨-, hread⟩ := ite_eq_iff.mp hread
    · exact nomatch hread
    · cases hread
      exact htime

theorem ArticulationChange.time_of_read? {c : ArticulationChange α} (h : read? m raw = some c) :
    ∃ t, Position.read? ["time_q", "start_q"] m raw = some t ∧ c.time = Quantity.greater 0.0 t := by
  obtain ⟨name, -, h⟩ := Option.bind_eq_some_iff.mp h
  obtain ⟨-, h⟩ | ⟨-, h⟩ := ite_eq_iff.mp h
  · exact nomatch h
  · obtain ⟨t, ht, h⟩ := Option.bind_eq_some_iff.mp h
    cases h
    exact ⟨t, ht, rfl⟩

theorem Curve.time_of_point? {p : Point α} (h : point? m raw = some p) :
    time? m raw = some p.time := by
  obtain ⟨v, -, h⟩ := Option.bind_eq_some_iff.mp h
  obtain ⟨value, -, h⟩ := Option.bind_eq_some_iff.mp h
  obtain ⟨t, ht, h⟩ := Option.bind_eq_some_iff.mp h
  cases h
  exact ht

/-! ### Agreement -/

/-- One time up to the sign of zero. -/
def Quantity.Same (x t : α) : Prop := x = t ∨ (t == x) = true

namespace Position

/-- Every reader that accepts an object puts it at this time. -/
structure Agreed (m : Meter) (raw : Value α) (t : α) : Prop where
  note (channel : Int) (n : Note α) : Note.read? m channel raw = some n → n.start = t
  hit (v : α × α × Int) : Hit.values? m raw = some v → v.1 = t
  placed (offset : α) : Pattern.placeAt m offset raw = Pattern.place raw (offset + t)
  repetition (patterns : List (Pattern α)) (r : Repeat α) :
    Pattern.readRepeat? m patterns raw = some r → r.start = t
  harmony (h : Harmony α) : Harmony.read? m raw = some h → h.time = t
  change (c : ArticulationChange α) :
    ArticulationChange.read? m raw = some c → Quantity.Same c.time t
  point (p : Point α) : Curve.point? m raw = some p → Quantity.Same p.time t

variable [Lawful α]

theorem not_timeAt_lt_zero (m : Meter) (bar beat : α) : ¬m.timeAt bar beat < 0.0 := by
  rw [Meter.timeAt]
  split
  · exact fun h => Lawful.not_lt_of_lt h h
  · assumption

/-- Holding a time that is not before zero to zero changes it only if it is not a number. -/
theorem same_greater_zero_iff {t : α} (ht : ¬t < 0.0) :
    Quantity.Same (Quantity.greater 0.0 t) t ↔ IsNumber t := by
  have hzero : IsNumber (0.0 : α) := Lawful.isNumber_of_isFinite Lawful.isFinite_zero
  rw [Quantity.greater]
  by_cases hpos : 0.0 < t
  · rw [if_pos hpos]
    exact iff_of_true (Or.inl rfl) (Lawful.isNumber_of_lt hpos).2
  · rw [if_neg hpos]
    constructor
    · rintro (rfl | h)
      · exact hzero
      · exact Lawful.isNumber_of_isFinite (Lawful.isFinite_of_beq_zero h)
    · exact fun hnumber => Or.inr ((Lawful.beq_iff hnumber hzero).mpr ⟨ht, hpos⟩)

namespace ByBar

variable (h : ByBar raw bar beat) (m : Meter)

include h

omit [Lawful α] in
/-- Only changes and points can stand elsewhere. -/
theorem agreed_of (hchange : ∀ c, ArticulationChange.read? m raw = some c →
      Quantity.Same c.time (m.timeAt bar beat))
    (hpoint : ∀ p, Curve.point? m raw = some p → Quantity.Same p.time (m.timeAt bar beat)) :
    Agreed m raw (m.timeAt bar beat) := by
  have honset := h.onset?_eq m
  constructor
  case note =>
    intro channel n hn
    exact Option.some_inj.mp ((Note.onset_of_read? hn).1.symm.trans honset)
  case hit =>
    intro v hv
    exact Option.some_inj.mp ((Hit.onset_of_values? hv).symm.trans honset)
  case placed =>
    intro offset
    rw [Pattern.placeAt, honset]
    rfl
  case repetition =>
    intro patterns r hr
    rw [Pattern.start_of_readRepeat? hr, honset]
    rfl
  case harmony =>
    intro entry hentry
    exact Option.some_inj.mp ((Harmony.time_of_read? hentry).symm.trans (h.harmony_time?_eq m))
  case change => exact hchange
  case point => exact hpoint

theorem same_change_iff {c : ArticulationChange α} (hc : ArticulationChange.read? m raw = some c) :
    Quantity.Same c.time (m.timeAt bar beat) ↔ IsNumber (m.timeAt bar beat) := by
  obtain ⟨t, ht, hc⟩ := ArticulationChange.time_of_read? hc
  rw [h.read?_eq m] at ht
  cases ht
  rw [hc]
  exact same_greater_zero_iff (not_timeAt_lt_zero m bar beat)

omit [Lawful α] in
theorem same_point_iff {p : Point α} (hp : Curve.point? m raw = some p) :
    Quantity.Same p.time (m.timeAt bar beat) ↔
      raw.has "bar" = true ∨ Quantity.Same 0.0 (m.timeAt bar beat) := by
  have htime := Curve.time_of_point? hp
  rw [h.curve_time?_eq m] at htime
  rw [← Option.some_inj.mp htime]
  by_cases hbar : raw.has "bar" = true
  · rw [if_pos hbar]
    exact iff_of_true (Or.inl rfl) (Or.inl hbar)
  · rw [if_neg hbar, or_iff_right hbar]

end ByBar

/-- All readers find the same time of an object that tells a bar or a beat, except that a curve
overlooks a beat without a bar, and that a change takes what is not a number for zero. -/
theorem ByBar.agreed_iff (h : ByBar raw bar beat) (m : Meter) :
    let t := m.timeAt bar beat
    onset? m raw = some t ∧ read? ["time_q", "start_q"] m raw = some t ∧
      Harmony.time? m raw = some t ∧
      Curve.time? m raw = some (if raw.has "bar" then t else 0.0) ∧
      (Agreed m raw t ↔
        ((ArticulationChange.read? m raw).isSome = true → IsNumber t) ∧
          ((Curve.point? m raw).isSome = true → raw.has "bar" = true ∨ Quantity.Same 0.0 t)) := by
  intro t
  refine ⟨h.onset?_eq m, h.read?_eq m, h.harmony_time?_eq m, h.curve_time?_eq m, ?_, ?_⟩
  · intro hagreed
    constructor
    · intro hsome
      obtain ⟨c, hc⟩ := Option.isSome_iff_exists.mp hsome
      exact (h.same_change_iff m hc).mp (hagreed.change c hc)
    · intro hsome
      obtain ⟨p, hp⟩ := Option.isSome_iff_exists.mp hsome
      exact (h.same_point_iff m hp).mp (hagreed.point p hp)
  · rintro ⟨hnumber, hbar⟩
    apply h.agreed_of m
    · intro c hc
      exact (h.same_change_iff m hc).mpr (hnumber (Option.isSome_of_eq_some hc))
    · intro p hp
      exact (h.same_point_iff m hp).mpr (hbar (Option.isSome_of_eq_some hp))

end Position

/-- A point that tells the third beat of no bar. -/
def beatOnly : Value Rat := .object [("beat", .string "3"), ("value", .number 10)]

theorem beatOnly_not_agreed : Position.ByBar beatOnly 1 3 ∧ ¬Position.Agreed {} beatOnly 2 := by
  have h : Position.ByBar beatOnly 1 3 := by
    constructor <;> first | rfl | decide +kernel
  have ht : Meter.timeAt {} (1 : Rat) 3 = 2 := by decide +kernel
  refine ⟨h, fun hagreed => ?_⟩
  obtain ⟨-, hbar⟩ := (ht ▸ (h.agreed_iff {}).2.2.2.2).mp hagreed
  exact absurd (hbar (by decide +kernel)) (by unfold Quantity.Same; decide +kernel)

end MusicPart
