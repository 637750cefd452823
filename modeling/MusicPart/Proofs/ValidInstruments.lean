import MusicPart.Proofs.Documents
import MusicPart.Proofs.DrumHits
import MusicPart.Proofs.LetterCase
import MusicPart.Proofs.Products

/-!
# Valid instruments

Every object describes an instrument, and whatever its members are, the numbers of the instrument
are within their bounds and the keys of its tables in lower case. The step of curves is finite as
well, unless it is written as a fraction that is too long for binary64.
-/

namespace MusicPart

open Json (Value)
open Midi
open Quantity (Lawful Ordered)

variable {α : Type}

/-! ### Finite documents -/

namespace Json

variable [Quantity α] {v w : Value α} {key : Text} {x : α}

/-- A document without infinities and without what is not a number. -/
def Value.Finite (v : Value α) : Prop := ∀ x, Occurs (.number x) v → Quantity.isFinite x = true

theorem Readable.finite {n : Nat} (h : Readable n v) : v.Finite := by
  intro x hx
  obtain ⟨m, hm⟩ := h.of_occurs hx
  exact hm.isFinite_numeric? rfl

namespace Value.Finite

variable (h : v.Finite)

include h

theorem of_find? (hw : v.find? key = some w) : w.Finite :=
  fun x hx => h x (hx.trans (occurs_of_find? hw))

theorem isFinite_numeric? (hx : v.numeric? = some x) : Quantity.isFinite x = true := by
  cases v with
  | number y =>
      cases hx
      exact h x .here
  | string s => exact isFinite_of_finite? hx
  | _ => cases hx

end Value.Finite

end Json

/-! ### Validity -/

structure Articulation.Valid (a : Articulation) : Prop where
  velocity : IsVelocity a.velocity
  channel : IsChannel a.channel
  controlValue : ∀ n ∈ a.controlValue, IsData n
  program : IsData a.program

section Valid

variable [Quantity α]

structure Articulations.Valid (as : Articulations α) : Prop where
  entries : ∀ m ∈ as.entries, Text.lower m.1 = m.1 ∧ m.2.Valid
  longest : ∀ m ∈ as.longest, Text.lower m.1 = m.1 ∧ 0.0 < m.2
  controller : IsData as.controller
  preRoll : 0.0 ≤ as.preRoll
  switchLength : Note.shortest ≤ as.switchLength

structure Controllers.Valid (c : Controllers α) : Prop where
  ofCurve : ∀ m ∈ c.ofCurve, IsData m.2
  step : Instrument.finestStep ≤ c.smoothing.step

structure Stamina.Valid (s : Stamina α) : Prop where
  breath : Note.shortest ≤ s.breath
  breathGap : 0.0 ≤ s.breathGap
  maxPieces : 1 ≤ s.maxPieces
  bowBars : 0.0 < s.bowBars
  bowGap : 0.0 ≤ s.bowGap

structure Instrument.Valid (i : Instrument α) : Prop where
  range : i.range.Sound
  preferred : ∀ r ∈ i.preferred, r.Sound
  channel : IsChannel i.channel
  drums : ∀ m ∈ i.drums, Text.lower m.1 = m.1 ∧ IsData m.2
  controllers : i.controllers.Valid
  articulations : i.articulations.Valid
  stamina : i.stamina.Valid

end Valid

namespace Instrument

/-! ### Members -/

section Members

variable {raw v : Value α} {key : Text}

theorem find?_of_section? (h : section? raw key = some v) : raw.find? key = some v :=
  (Option.filter_eq_some_iff.mp h).1

theorem of_mem_entries {β : Type} {read : Value α → Option β} {m : Text × β}
    (h : m ∈ entries raw key read) : Text.lower m.1 = m.1 ∧ ∃ v, read v = some m.2 := by
  obtain ⟨entry, -, hentry⟩ := List.mem_filterMap.mp h
  obtain ⟨x, hx, rfl⟩ := Option.map_eq_some_iff.mp hentry
  exact ⟨Text.lower_lower entry.1, entry.2, hx⟩

variable [Quantity α]

theorem pos_of_positive? {x : α} (h : positive? v = some x) : 0.0 < x := by
  simpa using (Option.filter_eq_some_iff.mp h).2

theorem isFinite_getD_number? (hraw : raw.Finite) (key : Text) {plain : α}
    (hplain : Quantity.isFinite plain = true) :
    Quantity.isFinite ((number? raw key).getD plain) = true := by
  cases hx : number? raw key with
  | none => exact hplain
  | some x =>
      obtain ⟨v, hv, hx⟩ := Option.bind_eq_some_iff.mp hx
      exact (hraw.of_find? hv).isFinite_numeric? hx

variable [Ordered α] {bound x : α}

theorem le_of_isFinite_of_not_lt (hbound : Quantity.isFinite bound = true)
    (hx : Quantity.isFinite x = true) (h : ¬x < bound) : bound ≤ x :=
  Ordered.le_iff.mpr
    ⟨Lawful.isNumber_of_isFinite hbound, Lawful.isNumber_of_isFinite hx, h⟩

theorem le_self_of_isFinite (hx : Quantity.isFinite x = true) : x ≤ x :=
  le_of_isFinite_of_not_lt hx hx fun h => Lawful.not_lt_of_lt h h

theorem le_atLeast (hbound : Quantity.isFinite bound = true) (hx : Quantity.isFinite x = true) :
    bound ≤ atLeast bound x := by
  rw [atLeast]
  split
  · exact le_self_of_isFinite hbound
  · rename_i hlt
    exact le_of_isFinite_of_not_lt hbound hx hlt

end Members

/-! ### Sections -/

section Sections

variable [Quantity α]

/-- Each section stands for settings of its own. -/
theorem read?_sections {raw : Value α} {i : Instrument α} (h : read? raw = some i) :
    i.preferred = (section? raw "range").bind (fun v => (v.find? "preferred").bind range?) ∧
    i.drums = ((section? raw "midi").map fun v => Table.ofList
      (entries v "drum_map" fun v => (Pitch.ofValue? v).map clampData)).getD [] ∧
    i.controllers = ((section? raw "controllers").map readControllers).getD ⟨[], plainSmoothing⟩ ∧
    i.articulations = ((section? raw "articulations").map
      (readArticulations i.channel)).getD plainArticulations ∧
    i.stamina = ((section? raw "duration_policy").map readStamina).getD plainStamina := by
  obtain ⟨-, h⟩ | ⟨-, h⟩ := ite_eq_iff.mp h
  · cases h
  · cases h
    cases section? raw "range" <;> cases section? raw "midi" <;> exact ⟨rfl, rfl, rfl, rfl, rfl⟩

theorem readArticulation_valid {channel : Int} (h : IsChannel channel) (raw : Value α) :
    (readArticulation channel raw).Valid where
  velocity := isVelocity_clampVelocity _
  channel := isChannel_channelOr h _
  controlValue n hn := by
    obtain ⟨k, -, rfl⟩ := Option.map_eq_some_iff.mp hn
    exact isData_clampData k
  program := isData_clampData _

theorem ofCurve_readControllers (raw : Value α) :
    ∀ m ∈ (readControllers raw).ofCurve, IsData m.2 := by
  intro m hm
  obtain ⟨entry, -, hentry⟩ := List.mem_filterMap.mp (Table.mem_of_mem_ofList hm)
  obtain ⟨x, -, hentry⟩ := Option.bind_eq_some_iff.mp hentry
  dsimp only at hentry
  split at hentry
  · rename_i hbounds
    cases hentry
    rw [Bool.and_eq_true, decide_eq_true_eq, decide_eq_true_eq] at hbounds
    exact hbounds
  · cases hentry

theorem entries_readArticulations {channel : Int} (h : IsChannel channel) (raw : Value α) :
    ∀ m ∈ (readArticulations channel raw).entries, Text.lower m.1 = m.1 ∧ m.2.Valid := by
  intro m hm
  obtain ⟨entry, hentry, rfl⟩ := List.mem_map.mp (Table.mem_of_mem_ofList hm)
  exact ⟨(of_mem_entries hentry).1, readArticulation_valid h entry.2⟩

theorem longest_readArticulations (channel : Int) (raw : Value α) :
    ∀ m ∈ (readArticulations channel raw).longest, Text.lower m.1 = m.1 ∧ 0.0 < m.2 := by
  intro m hm
  rcases List.mem_append.mp (Table.mem_of_mem_ofList hm) with hm | hm
  · obtain ⟨entry, hentry, hown⟩ := List.mem_filterMap.mp hm
    obtain ⟨x, hx, rfl⟩ := Option.map_eq_some_iff.mp hown
    obtain ⟨v, -, hx⟩ := Option.bind_eq_some_iff.mp hx
    exact ⟨(of_mem_entries hentry).1, pos_of_positive? hx⟩
  · obtain ⟨hlower, v, hx⟩ := of_mem_entries hm
    exact ⟨hlower, pos_of_positive? hx⟩

/-! ### Steps of curves -/

section Steps

/-- What is finer than the finest step counts as that one. -/
def coarsened (x : α) : α := if finestStep < x then x else finestStep

/-- The numbers on both sides of a stroke. -/
def parts? : Value α → Option (α × α)
  | .string t => do
      let (above, below) ← Text.cutAt? (Text.byte '/') t
      return (← (Value.string above : Value α).numeric?, ← (Value.string below : Value α).numeric?)
  | _ => none

/-- A step is a number, or a fraction with a positive denominator, or left at the finest one. -/
theorem stepOf_cases (v : Value α) : (∃ x, v = .number x ∧ stepOf v = coarsened x) ∨
    (∃ x y, parts? v = some (x, y) ∧ 0.0 < y ∧ stepOf v = coarsened (4.0 * x / y)) ∨
    (∀ p ∈ parts? v, ¬0.0 < p.2) ∧ stepOf v = finestStep := by
  cases v with
  | number x => exact .inl ⟨x, rfl, rfl⟩
  | string t =>
      refine .inr ?_
      simp only [stepOf, parts?, Option.bind_eq_bind]
      rcases Text.cutAt? (Text.byte '/') t with _ | ⟨above, below⟩
      · exact .inr ⟨nofun, rfl⟩
      · simp only [Option.bind_some]
        rcases (Value.string above : Value α).numeric? with _ | x
        · exact .inr ⟨nofun, rfl⟩
        · rcases (Value.string below : Value α).numeric? with _ | y
          · exact .inr ⟨nofun, rfl⟩
          · by_cases hy : 0.0 < y
            · exact .inl ⟨x, y, rfl, hy, by simp [hy, coarsened]⟩
            · refine .inr ⟨fun p hp => ?_, by simp [hy]⟩
              obtain rfl : (x, y) = p := Option.some.inj hp
              exact hy
  | _ => exact .inr (.inr ⟨nofun, rfl⟩)

variable [Ordered α]

theorem finestStep_le_self : (finestStep : α) ≤ finestStep :=
  le_self_of_isFinite Lawful.isFinite_sixteenth

theorem finestStep_le_coarsened (x : α) : finestStep ≤ coarsened x := by
  rw [coarsened]
  split
  · rename_i hlt
    exact Ordered.le_of_lt hlt
  · exact finestStep_le_self

theorem finestStep_le_stepOf (v : Value α) : finestStep ≤ stepOf v := by
  rcases stepOf_cases v with ⟨x, -, hstep⟩ | ⟨x, y, -, -, hstep⟩ | ⟨-, hstep⟩
  · exact (finestStep_le_coarsened x).trans_eq hstep.symm
  · exact (finestStep_le_coarsened _).trans_eq hstep.symm
  · exact finestStep_le_self.trans_eq hstep.symm

theorem finestStep_le_readSmoothing (raw : Value α) : finestStep ≤ (readSmoothing raw).step :=
  getD_map (finestStep ≤ ·) finestStep_le_self finestStep_le_stepOf

theorem plainControllers_valid : (⟨[], plainSmoothing⟩ : Controllers α).Valid :=
  ⟨List.forall_mem_nil _, finestStep_le_self⟩

theorem readControllers_valid (raw : Value α) : (readControllers raw).Valid where
  ofCurve := ofCurve_readControllers raw
  step := getD_map (fun s : Smoothing α => finestStep ≤ s.step) finestStep_le_self
    finestStep_le_readSmoothing

end Steps

end Sections

/-! ### Bounds of times -/

variable {raw : Value Float}

theorem plainArticulations_valid : (plainArticulations : Articulations Float).Valid where
  entries := List.forall_mem_nil _
  longest := List.forall_mem_nil _
  controller := ⟨by decide, by decide⟩
  preRoll := by decide +kernel
  switchLength := by decide +kernel

theorem readArticulations_valid {channel : Int} (h : IsChannel channel) (hraw : raw.Finite) :
    (readArticulations channel raw).Valid where
  entries := entries_readArticulations h raw
  longest := longest_readArticulations channel raw
  controller := isData_clampData _
  preRoll := le_atLeast Lawful.isFinite_zero (isFinite_getD_number? hraw _ (by decide +kernel))
  switchLength :=
    le_atLeast Lawful.isFinite_sixteenth (isFinite_getD_number? hraw _ (by decide +kernel))

theorem plainStamina_valid : (plainStamina : Stamina Float).Valid where
  breath := by decide +kernel
  breathGap := by decide +kernel
  maxPieces := by decide
  bowBars := by decide +kernel
  bowGap := by decide +kernel

theorem readStamina_valid (hraw : raw.Finite) : (readStamina raw).Valid where
  breath := le_atLeast Lawful.isFinite_sixteenth (isFinite_getD_number? hraw _ (by decide +kernel))
  breathGap := le_atLeast Lawful.isFinite_zero (isFinite_getD_number? hraw _ (by decide +kernel))
  maxPieces := by
    rw [readStamina]
    dsimp only
    split <;> omega
  bowBars := by
    rw [readStamina]
    dsimp only
    split
    · decide +kernel
    · rename_i hlong
      by_contra hlt
      refine hlong (le_of_isFinite_of_not_lt ?_ Lawful.isFinite_zero hlt)
      exact isFinite_getD_number? hraw _ (by decide +kernel)
  bowGap := le_atLeast Lawful.isFinite_zero (isFinite_getD_number? hraw _ (by decide +kernel))

/-! ### Finite steps -/

open Binary64 (limit rounded unpacked)

variable {v : Value Float} {x y : Float} {a b : Rat}

theorem isFinite_coarsened_iff (x : Float) :
    Quantity.isFinite (coarsened x) = true ↔ unpacked x ≠ .infinity .positive := by
  have hfinest : Quantity.isFinite (finestStep : Float) = true := Lawful.isFinite_sixteenth
  have hunpacked := Binary64.isFinite_iff.mp hfinest
  rw [coarsened]
  split
  · rename_i hlt
    rw [Binary64.isFinite_iff]
    have hnumber := (Binary64.lt_iff.mp hlt).2.1
    have hrank := (Binary64.lt_iff.mp hlt).2.2
    generalize unpacked x = u at hnumber hrank
    cases u with
    | notANumber => exact absurd rfl hnumber
    | infinity s =>
        cases s with
        | positive => simp [Float.Model.UnpackedFloat.isFinite]
        | negative => exact absurd hrank (Binary64.rank_le_infinity _).1.not_gt
    | _ => simp [Float.Model.UnpackedFloat.isFinite]
  · rename_i hlt
    exact iff_of_true hfinest fun hinfinite => hlt (Binary64.lt_of_infinity hunpacked hinfinite)

/-- A quotient is infinite if it is too large, or its dividend was. -/
theorem unpacked_quarters (hx : Quantity.value? x = some a) (hy : Quantity.value? y = some b)
    (hb : 0 < b) : unpacked (4.0 * x / y) = .infinity .positive ↔
      limit ≤ 4 * a ∨ limit ≤ rounded (4 * a / b) := by
  have hproduct := Binary64.approximates_mul Binary64.value?_four hx
  cases hp : Quantity.value? (4.0 * x) with
  | some p =>
      obtain rfl := Binary64.eq_four_mul hx hp
      rw [(Binary64.approximates_div hp hy hb.ne').eq_infinity_iff]
      have hlt := (abs_lt.mp (Binary64.rounded_of_value? hp).2).2
      exact (or_iff_right (not_le.mpr hlt)).symm
  | none =>
      obtain ⟨s, hs⟩ := hproduct.exists_infinity hp
      have hquotient := Binary64.unpacked_infinity_div hs hy hb
      have hround := Binary64.rounded_four_mul hx
      rw [hquotient]
      cases s with
      | positive =>
          refine iff_of_true rfl (Or.inl ?_)
          rw [← hround]
          exact hproduct.eq_infinity_iff.mp hs
      | negative =>
          have hbelow : limit ≤ -(4 * a) := by
            have hneg := hproduct.neg.eq_infinity_iff
            rw [hs, Binary64.rounded_neg, hround] at hneg
            exact hneg.mp rfl
          have hlimit := Binary64.limit_pos
          have hle : rounded (4 * a / b) ≤ 0 := by
            rw [← Binary64.rounded_zero]
            exact Binary64.rounded_mono (div_nonpos_of_nonpos_of_nonneg (by linarith) hb.le)
          refine iff_of_false nofun ?_
          rintro (h | h) <;> linarith

/-- A fraction of a whole note that is too long, or is so while its quarter notes are computed. -/
def TooLong (v : Value Float) : Prop :=
  ∃ p ∈ parts? v, ∃ a ∈ Quantity.value? p.1, ∃ b ∈ Quantity.value? p.2,
    0 < b ∧ (limit ≤ 4 * a ∨ limit ≤ rounded (4 * a / b))

theorem isFinite_parts? (h : parts? v = some (x, y)) :
    Quantity.isFinite x = true ∧ Quantity.isFinite y = true := by
  cases v with
  | string t =>
      obtain ⟨⟨above, below⟩, -, h⟩ := Option.bind_eq_some_iff.mp h
      obtain ⟨w, hw, h⟩ := Option.bind_eq_some_iff.mp h
      obtain ⟨z, hz, h⟩ := Option.bind_eq_some_iff.mp h
      cases h
      exact ⟨Json.isFinite_of_finite? hw, Json.isFinite_of_finite? hz⟩
  | _ => cases h

theorem isFinite_stepOf_iff (hv : v.Finite) :
    Quantity.isFinite (stepOf v) = true ↔ ¬TooLong v := by
  rcases stepOf_cases v with ⟨x, rfl, hstep⟩ | ⟨x, y, hparts, hpos, hstep⟩ | ⟨hparts, hstep⟩
  · rw [hstep, isFinite_coarsened_iff]
    refine iff_of_true ?_ nofun
    have hfinite := Binary64.isFinite_iff.mp (hv x .here)
    intro h
    rw [h] at hfinite
    cases hfinite
  · obtain ⟨hx, hy⟩ := isFinite_parts? hparts
    obtain ⟨a, ha⟩ := Option.isSome_iff_exists.mp hx
    obtain ⟨b, hb⟩ := Option.isSome_iff_exists.mp hy
    have hpos : 0 < b := (Binary64.lt_iff_of_value? Binary64.value?_zero hb).mp hpos
    rw [hstep, isFinite_coarsened_iff, Ne, unpacked_quarters ha hb hpos, not_iff_not]
    constructor
    · exact fun h => ⟨_, hparts, a, ha, b, hb, hpos, h⟩
    · rintro ⟨p, hp, a', ha', b', hb', -, h⟩
      obtain rfl : (x, y) = p := Option.some.inj (hparts.symm.trans hp)
      obtain rfl : a = a' := Option.some.inj (ha.symm.trans ha')
      obtain rfl : b = b' := Option.some.inj (hb.symm.trans hb')
      exact h
  · rw [hstep]
    refine iff_of_true Lawful.isFinite_sixteenth ?_
    rintro ⟨p, hp, a, -, b, hb, hpos, -⟩
    exact hparts p hp ((Binary64.lt_iff_of_value? Binary64.value?_zero hb).mpr hpos)

/-- What a description says about the step of curves. -/
def minStep? (raw : Value Float) : Option (Value Float) := do
  let controllers ← section? raw "controllers"
  let smoothing ← section? controllers "smoothing"
  smoothing.find? "min_step"

theorem finite_minStep? (hraw : raw.Finite) (hv : minStep? raw = some v) : v.Finite := by
  obtain ⟨controllers, hcontrollers, hv⟩ := Option.bind_eq_some_iff.mp hv
  obtain ⟨smoothing, hsmoothing, hv⟩ := Option.bind_eq_some_iff.mp hv
  exact ((hraw.of_find? (find?_of_section? hcontrollers)).of_find?
    (find?_of_section? hsmoothing)).of_find? hv

theorem step_eq {i : Instrument Float} (h : read? raw = some i) :
    i.controllers.smoothing.step = ((minStep? raw).map stepOf).getD finestStep := by
  rw [(read?_sections h).2.2.1, minStep?]
  cases section? raw "controllers" with
  | none => rfl
  | some controllers =>
      change (readControllers controllers).smoothing.step = _
      rw [readControllers]
      cases hs : section? controllers "smoothing" with
      | none => simp [hs, plainSmoothing]
      | some smoothing => simp [hs, readSmoothing]

/-! ### Instruments -/

theorem valid_of_read? (hraw : raw.Finite) {i : Instrument Float} (h : read? raw = some i) :
    i.Valid := by
  have htuned := read?_tuned h
  obtain ⟨hpreferred, hdrums, hcontrollers, harticulations, hstamina⟩ := read?_sections h
  refine ⟨htuned.range, ?_, htuned.channel, ?_, ?_, ?_, ?_⟩
  · intro r hr
    rw [hpreferred] at hr
    obtain ⟨v, -, hr⟩ := Option.bind_eq_some_iff.mp hr
    obtain ⟨w, -, hw⟩ := Option.bind_eq_some_iff.mp hr
    exact range?_sound hw
  · intro m hm
    refine ⟨?_, read?_drums h m hm⟩
    rw [hdrums] at hm
    cases hs : section? raw "midi" with
    | none => simp [hs] at hm
    | some v =>
        rw [hs] at hm
        exact (of_mem_entries (Table.mem_of_mem_ofList hm)).1
  · rw [hcontrollers]
    exact getD_map Controllers.Valid plainControllers_valid readControllers_valid
  · rw [harticulations]
    cases hs : section? raw "articulations" with
    | none => exact plainArticulations_valid
    | some v => exact readArticulations_valid htuned.channel (hraw.of_find? (find?_of_section? hs))
  · rw [hstamina]
    cases hs : section? raw "duration_policy" with
    | none => exact plainStamina_valid
    | some v => exact readStamina_valid (hraw.of_find? (find?_of_section? hs))

/-- Every object describes a valid instrument, whose step is finite unless it is written as a
fraction that is too long. -/
theorem read?_valid (hraw : raw.Finite) (hobject : raw.isObject = true) :
    ∃ i, read? raw = some i ∧ i.Valid ∧
      (Quantity.isFinite i.controllers.smoothing.step = true ↔ ∀ v ∈ minStep? raw, ¬TooLong v) := by
  obtain ⟨i, hi⟩ : ∃ i, read? raw = some i := ⟨_, if_neg (by simp [hobject])⟩
  refine ⟨i, hi, valid_of_read? hraw hi, ?_⟩
  rw [step_eq hi]
  cases hv : minStep? raw with
  | none => exact iff_of_true Lawful.isFinite_sixteenth nofun
  | some v =>
      rw [Option.map_some, Option.getD_some, isFinite_stepOf_iff (finite_minStep? hraw hv)]
      simp

def overlong : Text :=
  "\x7b\"midi\":\x7b\"channel\":99\x7d,"
    ++ "\"controllers\":\x7b\"smoothing\":\x7b\"min_step\":\"1e308/1\"\x7d\x7d\x7d"

/-- Four times the numerator is no number of binary64 any more. -/
theorem overlong_valid : ∃ raw : Value Float, Json.parse overlong = .ok raw ∧
    raw.isObject = true ∧ ∃ i, read? raw = some i ∧ i.Valid ∧
      Quantity.isFinite i.controllers.smoothing.step = false := by
  have hparse : Json.parse overlong = .ok (.object
    [("midi", .object [("channel", .number 99.0)]), ("controllers", .object
      [("smoothing", .object [("min_step", .string "1e308/1")])])] : Value Float) := rfl
  obtain ⟨i, hi, hvalid, hstep⟩ := read?_valid (Json.readable_parse hparse).finite rfl
  refine ⟨_, hparse, rfl, i, hi, hvalid, ?_⟩
  have habove : ((parts? (.string "1e308/1") : Option (Float × Float)).bind
      fun p => Quantity.value? p.1) = some (5010420900022432 * 2 ^ 971) := by decide +kernel
  have hbelow : ((parts? (.string "1e308/1") : Option (Float × Float)).bind
      fun p => Quantity.value? p.2) = some 1 := by decide +kernel
  obtain ⟨p, hp, ha⟩ := Option.bind_eq_some_iff.mp habove
  rw [hp, Option.bind_some] at hbelow
  rw [Bool.eq_false_iff, Ne, hstep]
  intro hshort
  refine hshort (.string "1e308/1") rfl ⟨p, hp, _, ha, _, hbelow, by norm_num, .inl ?_⟩
  decide +kernel

end Instrument

end MusicPart
