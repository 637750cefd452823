import MusicPart.Proofs.CurveTimes
import MusicPart.Proofs.Stages

/-!
# Times of events

Articulations are told within the selection. Tempo markers are as well unless its end is rounded up,
and the control changes of curves unless the last sample comes after it. Where that is so, some
candidate has an event after the end.
-/

namespace MusicPart

open Json (Value)

/-! ### Articulations -/

namespace Signal

def time : Signal Rat → Rat
  | keyswitch e => e.time
  | control e => e.time
  | program e => e.time

end Signal

namespace Articulator

variable (s : Articulator Rat)

theorem clampTime_mem (time : Rat) :
    0 ≤ s.clampTime time ∧ s.clampTime time ≤ max 0 s.length := by
  rw [clampTime]
  rw [Exact.greater_eq_max, Exact.zero_eq]
  exact Exact.clamp_mem time (le_max_left 0 s.length)

theorem signal?_time {a : Articulation} {time : Rat} {x : Signal Rat}
    (h : s.signal? a time = some x) : 0 ≤ x.time ∧ x.time ≤ max 0 s.length := by
  rw [signal?] at h
  cases hd : s.articulations.delivery <;> simp only [hd] at h
  · exact nomatch h
  · obtain ⟨pitch, -, rfl⟩ := Option.map_eq_some_iff.mp h
    exact s.clampTime_mem _
  · obtain ⟨value, -, rfl⟩ := Option.map_eq_some_iff.mp h
    exact s.clampTime_mem _
  · cases h
    exact s.clampTime_mem _
  · exact nomatch h

/-- Every event that tells the instrument of an articulation lies within the selection. -/
structure Timely (length : Rat) (d : Delivered Rat) : Prop where
  keyswitches : ∀ e ∈ d.keyswitches, 0 ≤ e.time ∧ e.time ≤ length
  controls : ∀ e ∈ d.controls, 0 ≤ e.time ∧ e.time ≤ length
  programs : ∀ e ∈ d.programs, 0 ≤ e.time ∧ e.time ≤ length

theorem assemble_timely (notes : List (Note Rat)) (wanted : List (Articulation × Rat))
    (label : Option Text) (unknown : Nat) :
    Timely (max 0 s.length) (s.assemble notes wanted label unknown) := by
  refine ⟨fun e he => ?_, fun e he => ?_, fun e he => ?_⟩
  · obtain ⟨w, -, k, hw, hek⟩ := exists_signal_of_keyswitch he
    rw [hek]
    exact s.signal?_time hw
  · obtain ⟨w, -, hw⟩ := exists_signal_of_control he
    exact s.signal?_time hw
  · obtain ⟨w, -, hw⟩ := exists_signal_of_program he
    exact s.signal?_time hw

theorem resolve_timely (notes : List (Note Rat)) (timeline : List (ArticulationChange Rat))
    (general : Text) : Timely (max 0 s.length) (s.resolve notes timeline general) := by
  rw [resolve]
  split
  · exact s.assemble_timely _ _ _ _
  · split
    · exact s.assemble_timely _ _ _ _
    · split
      · exact s.assemble_timely _ _ _ _
      · split
        · exact s.assemble_timely _ _ _ _
        · exact s.assemble_timely _ _ _ _

end Articulator

/-! ### Tempo markers -/

namespace TempoMarker

variable {length : Rat}

theorem read?_time {raw : Value Rat} {m : TempoMarker Rat} (h : read? length raw = some m) :
    0 ≤ m.time ∧ m.time ≤ Quantity.roundTo 1e6 (max 0 length) := by
  obtain ⟨v, -, h⟩ := Option.bind_eq_some_iff.mp h
  obtain ⟨time, -, h⟩ := Option.bind_eq_some_iff.mp h
  have hmem := Exact.clamp_mem time (le_max_left 0 length)
  have hround := Exact.roundTo_mem (show (0 : Rat) < 1e6 by norm_num) hmem.1 hmem.2
  simp only [Exact.greater_eq_max, Exact.zero_eq] at h
  split at h
  · exact nomatch h
  · cases h
    exact hround

theorem thin_sublist (room : Nat) (last : Option Rat) (markers : List (TempoMarker Rat)) :
    (thin room last markers).Sublist markers := by
  induction markers generalizing room last with
  | nil => cases room <;> exact .slnil
  | cons m markers ih =>
      cases room with
      | zero => exact List.nil_sublist _
      | succ room =>
          rw [thin]
          split
          · exact (ih _ _).cons_cons m
          · exact (ih _ _).cons m

theorem normalize_time (raw : Value Rat) : ∀ m ∈ (normalize length raw).markers,
    0 ≤ m.time ∧ m.time ≤ Quantity.roundTo 1e6 (max 0 length) := by
  intro m hm
  have hsorted := (thin_sublist _ _ _).subset hm
  have hread := (List.mergeSort_perm _ _).mem_iff.mp hsorted
  obtain ⟨v, -, hv⟩ := List.mem_filterMap.mp hread
  exact read?_time hv

/-- A tempo at the end of a selection. -/
def closing (length : Rat) : Value Rat :=
  .array [.object [("time_q", .number length), ("bpm", .number 100)]]

theorem normalize_closing (h : 0 ≤ length) : ∃ m ∈ (normalize length (closing length)).markers,
    m.time = Quantity.roundTo 1e6 length := by
  have htime : Quantity.clamp length 0.0 (Quantity.greater 0.0 length) = length := by
    rw [Exact.greater_eq_max, Exact.zero_eq, max_eq_right h]
    exact Exact.clamp_of_mem _ h le_rfl
  obtain ⟨m, hm, hmt⟩ : ∃ m, read? length
      (.object [("time_q", .number length), ("bpm", .number 100)]) = some m ∧
        m.time = Quantity.roundTo 1e6 length :=
    ⟨_, rfl, congrArg (Quantity.roundTo 1e6) htime⟩
  have hmarkers : (closing length).elements.filterMap (read? length) = [m] := by
    simp [closing, Value.elements, hm]
  refine ⟨m, ?_, hmt⟩
  rw [normalize]
  rw [hmarkers, sort, List.mergeSort_singleton]
  simp [maxMarkers, thin]

end TempoMarker

/-! ### Parts -/

/-- Every event of a part lies within a selection. -/
structure Part.EventsWithin (length : Rat) (part : Part Rat) : Prop where
  controls : ∀ e ∈ part.controls, 0 ≤ e.time ∧ e.time ≤ length
  keyswitches : ∀ e ∈ part.keyswitches, 0 ≤ e.time ∧ e.time ≤ length
  programs : ∀ e ∈ part.programs, 0 ≤ e.time ∧ e.time ≤ length
  markers : ∀ m ∈ part.markers, 0 ≤ m.time ∧ m.time ≤ length

/-- The instrument has a controller that samples its curve. -/
def Instrument.Samples (i : Instrument Rat) : Prop :=
  ∃ name controller, i.controllers.ofCurve.find? name = some controller ∧
    Curve.IsSampled name controller

variable {i : Instrument Rat} {s : Settings Rat}

theorem Settings.span_nonneg (s : Settings Rat) : 0 ≤ s.span := by
  rw [s.span_eq]
  exact le_max_left _ _

theorem Part.compile_eventsWithin
    (hlast : i.Samples → Curve.lastTime s.span i.controllers.smoothing.step ≤ s.span)
    (hround : s.keepsTempo = true → Quantity.roundTo 1e6 s.span ≤ s.span) {candidate : Value Rat}
    (hc : candidate.isObject = true) :
    ∃ part, Part.compile i s candidate = .ok part ∧ part.EventsWithin s.span := by
  have hspan := max_eq_right s.span_nonneg
  have htimely : Articulator.Timely s.span (Score.ofCandidate i s candidate).delivered := by
    have h := (⟨i.articulations, i.channel, s.span⟩ : Articulator Rat).resolve_timely
      (Score.ofCandidate i s candidate).phrased.notes (Score.ofCandidate i s candidate).timeline
      (Score.general candidate)
    rwa [hspan] at h
  refine ⟨_, Part.compile_ok i s hc, ⟨?_, htimely.keyswitches, htimely.programs, ?_⟩⟩
  · intro e he
    rcases List.mem_append.mp he with he | he
    · exact htimely.controls e he
    · obtain ⟨curve, -, he⟩ := List.mem_flatMap.mp he
      obtain ⟨hnonneg, hle⟩ := Curve.control_time _ _ curve s.span_nonneg e he
      refine ⟨hnonneg, ?_⟩
      rcases hle with hle | ⟨⟨controller, hfind, hsampled⟩, hle⟩
      · exact hle
      · exact hle.trans (hlast ⟨curve.name, controller, hfind, hsampled⟩)
  · intro m hm
    change m ∈ (markersOf s candidate).markers at hm
    rw [markersOf] at hm
    split at hm
    · rename_i hk
      have hmem := TempoMarker.normalize_time _ m hm
      rw [hspan] at hmem
      exact ⟨hmem.1, hmem.2.trans (hround hk)⟩
    · exact absurd hm List.not_mem_nil

/-! ### Events after the end -/

/-- A candidate with nothing but a tempo at the end. -/
def Part.closing (length : Rat) : Value Rat :=
  .object [("tempo_markers", TempoMarker.closing length)]

theorem Part.compile_closing (hk : s.keepsTempo = true) {part : Part Rat}
    (h : Part.compile i s (Part.closing s.span) = .ok part) :
    ∃ m ∈ part.markers, m.time = Quantity.roundTo 1e6 s.span := by
  rw [Part.compile_ok i s rfl] at h
  cases h
  change ∃ m ∈ (markersOf s (Part.closing s.span)).markers, _
  rw [markersOf]
  rw [if_pos hk]
  exact TempoMarker.normalize_closing s.span_nonneg

/-- A candidate with nothing but a curve that rises at the end. -/
def Part.rising (name : Text) (length step : Rat) : Value Rat :=
  .object [("curves", .object [(name, .object [("interp", .string "linear"),
    ("breakpoints", .array [
      .object [("time_q", .number (Curve.beforeLast length step)), ("value", .number 0)],
      .object [("time_q", .number length), ("value", .number 127)]])])])]

/-- The curve of a rising candidate. -/
def Curve.rising (name : Text) (length step : Rat) : Curve Rat :=
  ⟨name, .linear, true, Curve.rise length step⟩

theorem Curve.readAll_rising (default : Interpolation) (m : Meter) (name : Text)
    (length step : Rat) : Curve.readAll default m
      (Part.member (Part.rising name length step) "curves") = [Curve.rising name length step] := by
  rfl

theorem Note.takeIn_nil {α : Type} [Quantity α] (length : α) (m : Meter) (i : Instrument α) :
    (Note.takeIn length m i []).notes = [] := by
  rw [Note.takeIn]
  split
  · simp only
    split
    · simp [Note.boundAll, Note.monophonic, Note.sortByPitch, Note.apart, Note.followed]
    · rfl
  · rfl

theorem Hit.takeIn_nil {α : Type} [Quantity α] (length : α) (m : Meter) (i : Instrument α) :
    (Hit.takeIn length m i []).notes = [] := by
  rw [Hit.takeIn]
  split
  · rfl
  · rfl

theorem Score.delivered_rising (name : Text) (length step : Rat) :
    (Score.ofCandidate i s (Part.rising name length step)).delivered.notes = [] := by
  have htaken : (ofCandidate i s (Part.rising name length step)).taken.notes = [] := by
    have hnotes : elementsOf "notes" (Part.rising name length step) = [] := rfl
    have hdrums : elementsOf "drums" (Part.rising name length step) = [] := rfl
    change (takeIn i s (Part.rising name length step) {}).notes = []
    rw [takeIn]
    simp only [hnotes, hdrums, List.append_nil]
    split
    · simp only [Note.takeIn_nil, Hit.takeIn_nil, List.append_nil]
    · exact Note.takeIn_nil _ _ _
  rw [List.eq_nil_iff_forall_not_mem]
  intro n hn
  obtain ⟨before, hperm, hroutes⟩ := delivered_routes i s (Part.rising name length step)
  obtain ⟨d, hd, -⟩ := Note.exists_mem_of_forall₂ hroutes hn
  obtain ⟨gap, -, hsplit⟩ := phrased_perm i s (Part.rising name length step)
  obtain ⟨c, hc, -⟩ := List.mem_flatMap.mp (hsplit.mem_iff.mp (hperm.mem_iff.mp hd))
  obtain ⟨b, hb, -⟩ := mem_capped hc
  obtain ⟨a, ha, -⟩ := mem_separated hb
  obtain ⟨m, hm, -⟩ := mem_snapped ha
  rw [htaken] at hm
  exact absurd hm List.not_mem_nil

theorem Dynamics.mem_shape (c : Controllers Rat) (length : Rat) {curve : Curve Rat}
    (hp : curve.points ≠ []) : curve ∈ (shape c length [] [curve]).curves := by
  have hdynamics : (shapeDynamics c.smoothing.interpolation [] [curve]).curves = [curve] := by
    simp [shapeDynamics, added]
  have hexpression : curve ∈ (shapeExpression c.smoothing.interpolation length [curve]).curves := by
    rw [shapeExpression]
    split
    · rename_i hempty
      have hname : isNamed "expression" curve = false := by
        by_contra hnamed
        rw [Bool.not_eq_false] at hnamed
        simp [pointsOf, hnamed, hp] at hempty
      simp [setPoints, hname]
    · exact List.mem_singleton.mpr rfl
  rw [shape]
  split
  · exact List.mem_singleton.mpr rfl
  · have hcurves : (if maps c "dynamics" then
        shapeDynamics c.smoothing.interpolation [] [curve] else ⟨[curve], {}⟩ :
          Shaped Rat).curves = [curve] := by
      split
      · exact hdynamics
      · rfl
    simp only [hcurves]
    split
    · exact hexpression
    · exact List.mem_singleton.mpr rfl

theorem Part.compile_rising {name : Text} {controller : Int}
    (hfind : i.controllers.ofCurve.find? name = some controller)
    (hsampled : Curve.IsSampled name controller)
    (hlate : s.span < Curve.lastTime s.span i.controllers.smoothing.step) {part : Part Rat}
    (h : Part.compile i s (Part.rising name s.span i.controllers.smoothing.step) = .ok part) :
    ∃ e ∈ part.controls, s.span < e.time := by
  rw [Part.compile_ok i s rfl] at h
  cases h
  have hmem : Curve.rising name s.span i.controllers.smoothing.step ∈
      (Part.curves i s (Part.rising name s.span i.controllers.smoothing.step) []).curves := by
    rw [Part.curves]
    rw [Curve.readAll_rising]
    split
    · exact List.mem_singleton.mpr rfl
    · exact Dynamics.mem_shape _ _ (by simp [Curve.rising, Curve.rise])
  obtain ⟨e, he, hlt⟩ := Curve.control_late
    (Curve.rising name s.span i.controllers.smoothing.step) hfind hsampled rfl rfl s.span_nonneg
    hlate i.channel
  refine ⟨e, List.mem_append_right _ (List.mem_flatMap.mpr ⟨_, ?_, he⟩), hlt⟩
  rw [Score.delivered_rising]
  exact hmem

example : (4.0000006 : Rat) < Quantity.roundTo 1e6 4.0000006 := by decide +kernel

example : (999999.5 : Rat) < Curve.lastTime 999999.5 1000000 := by decide +kernel

end MusicPart
