import Mathlib
import MusicPart.Proofs.CurveTimes
import MusicPart.Proofs.Placement
import MusicPart.Proofs.Requests
import MusicPart.Proofs.ShapedCurves
import MusicPart.Proofs.Words

/-!
# Conversions of a request

Wherever a quantity of a request is taken to a machine word, it is brought within bounds before or
refused beyond them, with two exceptions: the number of steps in which a jump is smoothed, and the
index of the last sample of a curve. Neither is below zero. Whether everything fits is a matter of
how large these two are.
-/

namespace MusicPart

open Json (Value)

/-! ### Pitches of notes -/

section Patterns

variable {α : Type}

theorem Json.Value.occurs_of_first? {v w : Value α} {keys : List Text}
    (h : v.first? keys = some w) : Occurs w v := by
  obtain ⟨key, -, hkey⟩ := List.exists_of_findSome?_eq_some h
  exact occurs_of_find? (Option.filter_eq_some_iff.mp hkey).1

theorem Score.occurs_of_mem_elementsOf {key : Text} {v w : Value α} (h : w ∈ elementsOf key v) :
    Value.Occurs w v := by
  rw [elementsOf] at h
  cases hv : v.find? key with
  | none =>
      rw [hv] at h
      exact absurd h List.not_mem_nil
  | some u =>
      rw [hv] at h
      exact (Value.Occurs.element h .here).trans (Value.occurs_of_find? hv)

namespace Pattern

variable [Quantity α] {m : Meter} {patterns : List (Pattern α)} {raw v w : Value α}

theorem occurs_of_mem_notes {p : Pattern α} (h : read? m raw = some p) (hv : v ∈ p.notes) :
    Value.Occurs v raw := by
  obtain ⟨notes, hnotes, h⟩ := Option.bind_eq_some_iff.mp h
  cases notes with
  | array notes =>
      obtain ⟨-, h⟩ | ⟨-, h⟩ := ite_eq_iff.mp h
      · cases h
      · cases h
        exact (Value.Occurs.element hv .here).trans (Value.occurs_of_find? hnotes)
  | _ => cases h

theorem readRepeat?_spec {r : Repeat α} (h : readRepeat? m patterns raw = some r) :
    r.pattern ∈ patterns ∧ ∃ v x, raw.first? ["times", "count"] = some v ∧ v.numeric? = some x ∧
      ¬x < 1.0 ∧ r.held = decide (Quantity.ofInt (maxRepetitions + 1) ≤ x) ∧
      r.count = if r.held then maxRepetitions else (Quantity.toInt x).toNat := by
  obtain ⟨-, h⟩ | ⟨-, h⟩ := ite_eq_iff.mp h
  · cases h
  · obtain ⟨p, hp, h⟩ := Option.bind_eq_some_iff.mp h
    obtain ⟨v, hv, h⟩ := Option.bind_eq_some_iff.mp h
    obtain ⟨x, hx, h⟩ := Option.bind_eq_some_iff.mp h
    obtain ⟨-, h⟩ | ⟨hlow, h⟩ := ite_eq_iff.mp h
    · cases h
    · cases h
      exact ⟨List.mem_of_find?_eq_some hp, v, x, hv, hx, hlow, rfl, rfl⟩

theorem exists_place_of_mem_placements {r : Repeat α} (h : v ∈ placements m r) :
    ∃ raw ∈ r.pattern.notes, ∃ t, v = place raw t := by
  obtain ⟨k, -, h⟩ := List.mem_flatMap.mp h
  obtain ⟨raw, hraw, rfl⟩ := List.mem_map.mp h
  exact ⟨raw, (List.mem_filter.mp hraw).1, _, rfl⟩

/-- What an expansion adds are notes of its patterns, at other times. -/
theorem exists_place_of_mem_expandFrom : ∀ {raws : List (Value α)} {room : Nat},
    v ∈ (expandFrom m patterns room raws).notes →
      ∃ p ∈ patterns, ∃ raw ∈ p.notes, ∃ t, v = place raw t
  | [], _, h => absurd h List.not_mem_nil
  | raw :: raws, room, h => by
      rw [expandFrom] at h
      split at h
      · exact exists_place_of_mem_expandFrom h
      · rename_i r hr
        have hplaced (h : v ∈ placements m r) :
            ∃ p ∈ patterns, ∃ raw ∈ p.notes, ∃ t, v = place raw t :=
          ⟨r.pattern, (readRepeat?_spec hr).1, exists_place_of_mem_placements h⟩
        dsimp only at h
        split at h
        · exact hplaced (List.mem_of_mem_take h)
        · rcases List.mem_append.mp h with h | h
          · exact hplaced h
          · exact exists_place_of_mem_expandFrom h

/-- What a note tells besides its time stands in the candidate, also where a pattern placed it. -/
theorem occurs_of_mem_expand {candidate : Value α} (hv : v ∈ (expand m candidate).notes)
    {keys : List Text} (hkeys : ∀ key ∈ keys, key ∉ timeKeys) (hw : v.first? keys = some w) :
    Value.Occurs w candidate := by
  rw [expand] at hv
  split at hv
  · rename_i patterns repeats hpatterns hrepeats
    obtain ⟨p, hp, raw, hraw, t, rfl⟩ := exists_place_of_mem_expandFrom hv
    obtain ⟨rawPattern, hmem, hread⟩ := List.mem_filterMap.mp hp
    rw [first?_place raw t hkeys] at hw
    have hpattern : Value.Occurs rawPattern candidate :=
      (Value.Occurs.element hmem .here).trans (Value.occurs_of_find? hpatterns)
    exact (Value.occurs_of_first? hw).trans ((occurs_of_mem_notes hread hraw).trans hpattern)
  · exact absurd hv List.not_mem_nil

end Pattern

end Patterns

variable {α : Type} [Quantity α]

/-! ### Smoothed jumps -/

namespace Dynamics

theorem mem_fill {x : Point α} : ∀ {points : List (Point α)}, x ∈ fill points ↔
    x ∈ points ∨ ∃ p q, [p, q] <:+: points ∧ x ∈ inBetween p q
  | [] => by simp [fill]
  | [p] => by simp [fill, List.infix_cons_iff]
  | p :: q :: points => by
      rw [fill, List.mem_cons, List.mem_append, mem_fill, List.mem_cons (a := x) (b := p)]
      constructor
      · rintro (h | h | h | ⟨a, b, hab, h⟩)
        · exact .inl (.inl h)
        · exact .inr ⟨p, q, ⟨[], points, rfl⟩, h⟩
        · exact .inl (.inr h)
        · exact .inr ⟨a, b, hab.trans (List.suffix_cons p _).isInfix, h⟩
      · rintro ((h | h) | ⟨a, b, hab, h⟩)
        · exact .inl h
        · exact .inr (.inr (.inl h))
        · rcases List.infix_cons_iff.mp hab with hpre | hab
          · obtain ⟨rfl, hrest⟩ := List.cons_prefix_cons.mp hpre
            obtain ⟨rfl, -⟩ := List.cons_prefix_cons.mp hrest
            exact .inr (.inl h)
          · exact .inr (.inr (.inr ⟨a, b, hab, h⟩))

/-- Smoothing puts points between neighbours and leaves the others. -/
theorem mem_smooth {x : Point α} {points : List (Point α)} : x ∈ smooth points ↔
    x ∈ points ∨ ∃ p q, [p, q] <:+: Curve.sortPoints points ∧ x ∈ inBetween p q := by
  rw [smooth, mem_fill, Curve.sortPoints, List.mem_mergeSort]

/-- A jump is smoothed in the steps it needs, and not at all if these are too many. -/
theorem length_inBetween {p q : Point α} (h : jumps p q = true) : (inBetween p q).length =
    (Conversion.toInt32 (stepsNeeded p q)).result?.elim 0 fun steps => (steps - 1).toNat := by
  have hword : (-1 : Int) ≤ 0x80000000 := by decide
  simp only [sub_eq_add_neg]
  rw [inBetween, if_pos h, List.length_map, List.length_range,
    ← Conversion.toNat_toWord_add hword]
  rfl

theorem inBetween_eq_nil {p q : Point α} (h : ¬(Conversion.toInt32 (stepsNeeded p q)).Fits) :
    inBetween p q = [] := by
  by_cases hjumps : jumps p q = true
  · rw [← List.length_eq_zero_iff, length_inBetween hjumps, Conversion.result?_eq_none h]
    rfl
  · rw [inBetween, if_neg hjumps]

end Dynamics

/-! ### Sampled curves -/

namespace Curve

/-- The distance of two samples. -/
def sampleStep (c : Controllers α) : α :=
  if c.smoothing.step < Instrument.finestStep then Instrument.finestStep else c.smoothing.step

/-- A curve that a controller follows by samples. -/
structure TakesSamples (c : Controllers α) (length : α) (curve : Curve α) (controller : Int) :
    Prop where
  mapped : c.ofCurve.find? curve.name = some controller
  sampled : IsSampled curve.name controller
  not_held : (curve.interpolation == .hold) = false
  nonempty : clean length curve.points ≠ []
  length : ¬length < 0.0

namespace TakesSamples

variable {c : Controllers α} {length : α} {curve : Curve α} {controller : Int}

theorem control_eq (h : TakesSamples c length curve controller) (channel : Int) :
    control c length channel curve =
      sampledControl curve.interpolation controller length channel c.smoothing.step
        c.smoothing.sparse (clean length curve.points) := by
  obtain ⟨hlow, hhigh, hpedal⟩ := h.sampled
  have hdata : ¬(decide (controller < 0) || decide (127 < controller)) = true := by
    simpa using ⟨hlow, hhigh⟩
  rw [control, h.mapped]
  dsimp only
  rw [if_neg hdata, hpedal, h.not_held]
  rfl

/-- The samples of a curve are those up to the last one, unless its index is too large. -/
theorem samples_eq (h : TakesSamples c length curve controller) (i : Interpolation) :
    samples i length c.smoothing.step (clean length curve.points) =
      (List.range ((Conversion.toInt64 (lastSample length (sampleStep c))).result?.elim 0
        fun k => (k + 1).toNat)).map fun (k : Nat) =>
          sample i (clean length curve.points) (sampleStep c) k := by
  have hnonempty : ¬((clean length curve.points).isEmpty || decide (length < 0.0)) = true := by
    simpa using ⟨h.nonempty, h.length⟩
  have hword : (1 : Int) ≤ 0x8000000000000000 := by decide
  rw [samples, if_neg hnonempty, ← Conversion.toNat_toWord_add hword]
  rfl

/-- A controller does not follow a curve of which there are too many samples. -/
theorem control_eq_nil (h : TakesSamples c length curve controller)
    (hfits : ¬(Conversion.toInt64 (lastSample length (sampleStep c))).Fits) (channel : Int) :
    control c length channel curve = [] := by
  rw [h.control_eq, sampledControl, h.samples_eq, Conversion.result?_eq_none hfits]
  cases c.smoothing.sparse <;> rfl

end TakesSamples

end Curve

/-! ### Requests -/

namespace Request

/-- The documents that a text brings: itself, and the candidate if that is a text again. -/
inductive IsDocument (t : Text) (v : Value α) : Prop
  | request (h : Json.parse t = .ok v)
  | candidate {raw : Value α} {s : Text} (hraw : Json.parse t = .ok raw)
      (hs : raw.find? "candidate" = some (.string s)) (h : Json.parse s = .ok v)

def rawNotes (r : Request α) : List (Value α) :=
  Score.elementsOf "notes" r.candidate ++ (Pattern.expand r.settings.meter r.candidate).notes

def delivered (r : Request α) : List (Note α) :=
  (Score.ofCandidate r.instrument r.settings r.candidate).delivered.notes

def readCurves (r : Request α) : List (Curve α) :=
  Curve.readAll r.instrument.controllers.smoothing.interpolation r.settings.meter
    (Part.member r.candidate "curves")

def curves (r : Request α) : List (Curve α) :=
  (Part.curves r.instrument r.settings r.candidate r.delivered).curves

def swelled? (r : Request α) : Option (List (Point α)) :=
  if r.instrument.isDrum then none
  else Dynamics.swelled? r.instrument.controllers r.settings.span r.delivered r.readCurves

def smoothed (r : Request α) : List (List (Point α)) :=
  if r.instrument.isDrum then []
  else Dynamics.smoothed r.instrument.controllers r.settings.span r.delivered r.readCurves

theorem mem_smoothed_of_swelled? {r : Request α} {points : List (Point α)}
    (h : points ∈ r.swelled?) : points ∈ r.smoothed := by
  rw [swelled?] at h
  rw [smoothed]
  split
  · rename_i hdrum
    rw [if_pos hdrum] at h
    cases h
  · rename_i hdrum
    rw [if_neg hdrum] at h
    exact List.mem_append_left _ (Option.mem_toList.mpr h)

theorem swelled?_or_arch_of_mem_smoothed {r : Request α} {points : List (Point α)}
    (h : points ∈ r.smoothed) :
    points ∈ r.swelled? ∨ points = Dynamics.arch r.settings.span := by
  rw [smoothed] at h
  rw [swelled?]
  split at h
  · cases h
  · rename_i hdrum
    rw [if_neg hdrum]
    rcases List.mem_append.mp h with h | h
    · exact .inl (Option.mem_toList.mp h)
    · obtain ⟨-, h⟩ | ⟨-, h⟩ := ite_eq_iff.mp (Option.mem_toList.mp h)
      · exact .inr (Option.some.inj h).symm
      · cases h

/-- The conversions to a machine word that are made for a text. Where every number is brought
within bounds the number is left open. -/
inductive Converts (t : Text) : Conversion α → Prop
  /-- Whole numbers of a document, and the number of pieces of a long note. -/
  | saturated {x : α} (h : Quantity.IsNumber x) :
      Converts t (.toInt32 (Quantity.clamp x (-1e6) 1e6))
  /-- Values of a controller. -/
  | data {x : α} (h : Quantity.IsNumber x) :
      Converts t (.toInt64 (Quantity.round (Quantity.clamp x 0.0 127.0)))
  | pitch {v : Value α} {x : α} (hv : IsDocument t v) (hx : Value.Occurs (.number x) v)
      (hbound : ¬Quantity.ofInt Pitch.largest < Quantity.abs x) : Converts t (.toInt32 x)
  | notePitch {r : Request α} {raw : Value α} {x : α} (hr : read t = .ok r)
      (hraw : raw ∈ r.rawNotes) (hx : raw.first? ["pitch", "note", "midi"] = some (.number x))
      (hbound : ¬Quantity.ofInt Pitch.largest < Quantity.abs x) : Converts t (.toInt32 x)
  /-- The two numbers of a meter. -/
  | whole {x : α} (hwhole : (Quantity.floor x == x) = true) (hbound : ¬1e6 < Quantity.abs x) :
      Converts t (.toInt32 x)
  | repetitions {r : Request α} {raw v : Value α} {x : α} (hr : read t = .ok r)
      (hraw : raw ∈ Score.elementsOf "repeats" r.candidate)
      (hv : raw.first? ["times", "count"] = some v) (hx : v.numeric? = some x) (hlow : ¬x < 1.0)
      (hhigh : ¬Quantity.ofInt (Pattern.maxRepetitions + 1) ≤ x) : Converts t (.toInt32 x)
  | steps {r : Request α} {points : List (Point α)} {p q : Point α} (hr : read t = .ok r)
      (hpoints : points ∈ r.smoothed) (hpq : [p, q] <:+: Curve.sortPoints points)
      (hjumps : Dynamics.jumps p q = true) : Converts t (.toInt32 (Dynamics.stepsNeeded p q))
  | samples {r : Request α} {curve : Curve α} {controller : Int} (hr : read t = .ok r)
      (hcurve : curve ∈ r.curves)
      (h : Curve.TakesSamples r.instrument.controllers r.settings.span curve controller) :
      Converts t (.toInt64
        (Curve.lastSample r.settings.span (Curve.sampleStep r.instrument.controllers)))

/-- Neither a jump of the dynamics nor the selection, in samples, is too large. -/
structure InRange (r : Request Float) : Prop where
  steps : ∀ points ∈ r.swelled?, ∀ p q, [p, q] <:+: Curve.sortPoints points →
    Dynamics.jumps p q = true → Dynamics.stepsNeeded p q < 2147483648.0
  samples : ∀ curve ∈ r.curves, ∀ controller,
    Curve.TakesSamples r.instrument.controllers r.settings.span curve controller →
      Curve.lastSample r.settings.span (Curve.sampleStep r.instrument.controllers) <
        9223372036854775808.0

/-! ### Documents of a text -/

theorem isFinite_numeric?_of_occurs {t : Text} {v w : Value α} {x : α} (hv : IsDocument t v)
    (hw : Value.Occurs w v) (hx : w.numeric? = some x) : Quantity.isFinite x = true := by
  obtain ⟨n, hreadable⟩ : ∃ n, Json.Readable n v := by
    cases hv with
    | request h => exact ⟨_, Json.readable_parse h⟩
    | candidate _ _ h => exact ⟨_, Json.readable_parse h⟩
  obtain ⟨m, hm⟩ := hreadable.of_occurs hw
  exact hm.isFinite_numeric? hx

theorem exists_isDocument_of_read {t : Text} {r : Request α} (h : read t = .ok r) :
    ∃ v, IsDocument t v ∧ Value.Occurs r.candidate v := by
  obtain ⟨raw, hraw, -, hcandidate, -⟩ := read_eq_ok.mp h
  obtain ⟨v, ms, hv, hstands, heq⟩ := candidateOf_eq_ok.mp hcandidate
  rw [heq]
  cases hstands with
  | text h => exact ⟨_, .candidate hraw hv h, .here⟩
  | object => exact ⟨raw, .request hraw, Value.occurs_of_find? hv⟩

theorem occurs_of_mem_rawNotes {r : Request α} {raw v : Value α} (hraw : raw ∈ r.rawNotes)
    {keys : List Text} (hkeys : ∀ key ∈ keys, key ∉ Pattern.timeKeys)
    (hv : raw.first? keys = some v) : Value.Occurs v r.candidate := by
  rcases List.mem_append.mp hraw with hraw | hraw
  · exact (Value.occurs_of_first? hv).trans (Score.occurs_of_mem_elementsOf hraw)
  · exact Pattern.occurs_of_mem_expand hraw hkeys hv

/-! ### Which conversions fit -/

open Conversion (fits_iff_lt)

theorem fits_stepsNeeded_iff (p q : Point Float) :
    (Conversion.toInt32 (Dynamics.stepsNeeded p q)).Fits ↔
      Dynamics.stepsNeeded p q < 2147483648.0 := by
  refine fits_iff_lt (by decide) ?_ (by decide +kernel)
  have hquotient : ¬Quantity.abs (q.value - p.value) / 20.0 < (0.0 : Float) :=
    Binary64.not_div_lt_zero (Binary64.not_abs_lt_zero _) (by decide +kernel) (by decide +kernel)
  exact Binary64.not_ceil_lt_zero (Binary64.shallow_sub_slack hquotient)

example : ¬(Conversion.toInt32 (Dynamics.stepsNeeded ⟨0.0, 0.0⟩ ⟨0.5, (5e10 : Float)⟩)).Fits := by
  decide +kernel

/-- The finest step is above zero, and no step is below it. -/
theorem sampleStep_spec (c : Controllers Float) : ¬Curve.sampleStep c < 0.0 ∧
    (Curve.sampleStep c == 0.0) = false := by
  rw [Curve.sampleStep]
  split
  · decide +kernel
  · rename_i hnot
    have hfinest : (0.0 : Float) < Instrument.finestStep := by decide +kernel
    obtain ⟨-, hnumber, hrank⟩ := Binary64.lt_iff.mp hfinest
    refine ⟨fun h => hnot ?_, Bool.not_eq_true _ ▸ fun h => hnot ?_⟩
    · obtain ⟨hx, -, h⟩ := Binary64.lt_iff.mp h
      exact Binary64.lt_iff.mpr ⟨hx, hnumber, h.trans hrank⟩
    · obtain ⟨hx, -, h⟩ := Binary64.beq_iff.mp h
      exact Binary64.lt_iff.mpr ⟨hx, hnumber, h ▸ hrank⟩

theorem fits_lastSample_iff {length : Float} (h : ¬length < 0.0) (c : Controllers Float) :
    (Conversion.toInt64 (Curve.lastSample length (Curve.sampleStep c))).Fits ↔
      Curve.lastSample length (Curve.sampleStep c) < 9223372036854775808.0 := by
  obtain ⟨hstep, hzero⟩ := sampleStep_spec c
  have hquotient : ¬length / Curve.sampleStep c < 0.0 := Binary64.not_div_lt_zero h hstep hzero
  exact fits_iff_lt (by decide)
    (Binary64.not_floor_lt_zero (Binary64.not_add_lt_zero hquotient (by decide +kernel)))
    (by decide +kernel)

example : ¬(Conversion.toInt64 (Curve.lastSample (1e30 : Float) Instrument.finestStep)).Fits := by
  decide +kernel

/-- A rise and fall has two values, so its jumps are known. -/
theorem fits_stepsNeeded_arch {length : Float} {p q : Point Float}
    (h : [p, q] <:+: Curve.sortPoints (Dynamics.arch length)) :
    (Conversion.toInt32 (Dynamics.stepsNeeded p q)).Fits := by
  have hvalue : ∀ a ∈ [p, q], a.value = 64.0 ∨ a.value = 96.0 := by
    intro a ha
    have hmem : a ∈ Dynamics.arch length := List.mem_mergeSort.mp (h.subset ha)
    simp only [Dynamics.arch, List.mem_cons, List.not_mem_nil, or_false] at hmem
    rcases hmem with rfl | rfl | rfl
    · exact .inl rfl
    · exact .inr rfl
    · exact .inl rfl
  rw [Dynamics.stepsNeeded]
  rcases hvalue p (by simp) with hp | hp <;> rcases hvalue q (by simp) with hq | hq <;>
    rw [hp, hq] <;> decide +kernel

theorem fits_pitch {t : Text} {v : Value Float} {x : Float} (hv : IsDocument t v)
    (hx : Value.Occurs (.number x) v) (hbound : ¬Quantity.ofInt Pitch.largest < Quantity.abs x) :
    (Conversion.toInt32 x).Fits :=
  Conversion.fits_of_not_lt_abs
    (Quantity.Lawful.isNumber_of_isFinite (isFinite_numeric?_of_occurs hv hx rfl))
    (Binary64.value?_ofInt (by decide)) (by decide) hbound

/-- What is not a number differs from its whole part too. -/
theorem fits_whole {x : Float} (hwhole : (Quantity.floor x == x) = true)
    (hbound : ¬1e6 < Quantity.abs x) : (Conversion.toInt32 x).Fits :=
  Conversion.fits_of_not_lt_abs (Binary64.isNumber_iff.mpr (Binary64.beq_iff.mp hwhole).2.1)
    Conversion.value?_million (by decide) hbound

theorem ofValue?_of_occurs {t : Text} {v : Value Float} {x : Float} (hv : IsDocument t v)
    (hx : Value.Occurs (.number x) v) : Pitch.ofValue? (.number x) =
      if Quantity.ofInt Pitch.largest < Quantity.abs x then none
      else (Conversion.toInt32 x).result? := by
  rw [Pitch.ofValue?]
  split
  · rfl
  · rename_i hbound
    exact (fits_pitch hv hx hbound).result?_eq.symm

theorem wholeNumber?_eq (v : Value Float) : TempoMarker.wholeNumber? v =
    v.numeric?.bind fun x =>
      if Quantity.floor x != x || 1e6 < Quantity.abs x then none
      else (Conversion.toInt32 x).result? := by
  refine congrArg v.numeric?.bind (funext fun x => ?_)
  split
  · rfl
  · rename_i h
    obtain ⟨hwhole, hbound⟩ : (Quantity.floor x == x) = true ∧ ¬1e6 < Quantity.abs x := by
      simpa [bne] using h
    exact (fits_whole hwhole hbound).result?_eq.symm

theorem fits_repetitions {x : Float} (hx : Quantity.IsNumber x) (hlow : ¬x < 1.0)
    (hhigh : ¬Quantity.ofInt (Pattern.maxRepetitions + 1) ≤ x) : (Conversion.toInt32 x).Fits := by
  have hnot : ¬Quantity.ofInt (Pattern.maxRepetitions + 1) < x := by
    intro hlt
    obtain ⟨hm, hx, hrank⟩ := Binary64.lt_iff.mp hlt
    exact hhigh (Binary64.le_iff.mpr ⟨hm, hx, lt_asymm hrank⟩)
  obtain ⟨r, hr, hone, hmax⟩ := Binary64.exists_value?_of_not_lt hx
    (a := ((1 : Int) : Rat)) (b := ((257 : Int) : Rat)) (by decide +kernel) (by decide +kernel)
    hlow hnot
  exact Conversion.fits_of_mem hr hone hmax (by decide) (by decide)

/-- A repeat that is not held is repeated as often as the word says. -/
theorem count_of_readRepeat? {m : Meter} {patterns : List (Pattern Float)} {raw : Value Float}
    {r : Repeat Float} (h : Pattern.readRepeat? m patterns raw = some r) (hheld : r.held = false) :
    ∃ v x, raw.first? ["times", "count"] = some v ∧ v.numeric? = some x ∧
      r.count = ((Conversion.toInt32 x).result?.getD 0).toNat := by
  obtain ⟨-, v, x, hv, hx, hlow, hhigh, hcount⟩ := Pattern.readRepeat?_spec h
  rw [hheld] at hhigh hcount
  refine ⟨v, x, hv, hx, hcount.trans (congrArg Int.toNat ?_)⟩
  exact Conversion.toInt_eq_getD (c := .toInt32 x) fun hfinite =>
    fits_repetitions (Quantity.Lawful.isNumber_of_isFinite hfinite) hlow
      (of_decide_eq_false hhigh.symm)

/-- Every conversion of a text fits, unless the part it asks for has a jump in the dynamics or a
number of samples that is too large. -/
theorem forall_fits_iff (t : Text) : (∀ c : Conversion Float, Converts t c → c.Fits) ↔
    ∀ r, read t = .ok r → r.InRange := by
  constructor
  · intro h r hr
    refine ⟨fun points hpoints p q hpq hjumps => ?_, fun curve hcurve controller hsampled => ?_⟩
    · exact (fits_stepsNeeded_iff p q).mp
        (h _ (.steps hr (mem_smoothed_of_swelled? hpoints) hpq hjumps))
    · exact (fits_lastSample_iff hsampled.length _).mp (h _ (.samples hr hcurve hsampled))
  · intro h c hc
    cases hc with
    | saturated hx => exact Conversion.fits_saturated hx
    | data hx => exact Conversion.fits_data hx
    | pitch hv hx hbound => exact fits_pitch hv hx hbound
    | notePitch hr hraw hx hbound =>
        obtain ⟨v, hv, hcandidate⟩ := exists_isDocument_of_read hr
        exact fits_pitch hv ((occurs_of_mem_rawNotes hraw (by decide) hx).trans hcandidate) hbound
    | whole hwhole hbound => exact fits_whole hwhole hbound
    | repetitions hr hraw hv hx hlow hhigh =>
        obtain ⟨v, hdocument, hcandidate⟩ := exists_isDocument_of_read hr
        have hoccurs := (Value.occurs_of_first? hv).trans
          ((Score.occurs_of_mem_elementsOf hraw).trans hcandidate)
        exact fits_repetitions (Quantity.Lawful.isNumber_of_isFinite
          (isFinite_numeric?_of_occurs hdocument hoccurs hx)) hlow hhigh
    | steps hr hpoints hpq hjumps =>
        rename_i r points p q
        rcases swelled?_or_arch_of_mem_smoothed hpoints with hswelled | rfl
        · exact (fits_stepsNeeded_iff p q).mpr ((h _ hr).steps _ hswelled p q hpq hjumps)
        · exact fits_stepsNeeded_arch hpq
    | samples hr hcurve hsampled =>
        exact (fits_lastSample_iff hsampled.length _).mpr
          ((h _ hr).samples _ hcurve _ hsampled)

end Request

end MusicPart
