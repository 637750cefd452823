import MusicPart.Proofs.EventTimes
import MusicPart.Proofs.WholeNumbers

/-!
# The pedal

The sustain pedal is up or down, and its controller has one value for each. No curve writes another
value there, whatever its name and the way it is followed. Articulations that are sent as control
changes write the values of the instrument, and some candidate asks for each of them.
-/

namespace MusicPart

open Json (Value)
open Midi

variable {α : Type}

/-- The values that put the pedal up and down. -/
def Curve.IsPedalValue (n : Int) : Prop := n = 0 ∨ n = 127

def ControlChange.KeepsPedal (c : ControlChange α) : Prop :=
  c.controller = Curve.pedal → Curve.IsPedalValue c.value

/-- If articulations are sent on the pedal's controller, each that has a name and a value puts the
pedal up or down. -/
def Articulations.KeepPedal (as : Articulations α) : Prop :=
  as.delivery = .control → clampData as.controller = Curve.pedal →
    ∀ name : Text, name ≠ [] → ∀ a ∈ as.find? name, ∀ v ∈ a.controlValue,
      Curve.IsPedalValue (clampData v)

/-! ### Names -/

namespace Articulator

variable {s : Articulator α}

/-- An articulation that the instrument knows by a name. -/
def Named (s : Articulator α) (a : Articulation) : Prop :=
  ∃ name : Text, name ≠ [] ∧ s.articulations.find? name = some a

theorem mem_runHeads {current : Text} {notes : List (Note α)} {w : Articulation × α}
    (h : w ∈ s.runHeads current notes) : s.Named w.1 := by
  induction notes generalizing current with
  | nil => exact absurd h List.not_mem_nil
  | cons n notes ih =>
      rw [runHeads] at h
      split at h
      · exact ih h
      · rename_i htag
        rcases List.mem_append.mp h with h | h
        · obtain ⟨a, ha, rfl⟩ := Option.map_eq_some_iff.mp (Option.mem_toList.mp h)
          refine ⟨n.tag, ?_, ha⟩
          intro hempty
          simp [isTagged, hempty] at htag
        · exact ih h

theorem mem_byTimeline {notes : List (Note α)} {timeline : List (ArticulationChange α)}
    (ht : ∀ c ∈ timeline, c.name ≠ []) {w : Articulation × α}
    (h : w ∈ (s.byTimeline notes timeline).2.1) : s.Named w.1 := by
  obtain ⟨c, hc, hw⟩ := List.mem_filterMap.mp h
  obtain ⟨a, ha, rfl⟩ := Option.map_eq_some_iff.mp hw
  exact ⟨c.name, ht c hc, ha⟩

end Articulator

variable [Quantity α]

/-! ### Curves -/

namespace Curve

theorem edges_isPedalValue (after : α) (runs : List (α × Bool)) :
    ∀ s ∈ edges after runs, IsPedalValue s.2 := by
  induction runs with
  | nil => exact List.forall_mem_nil _
  | cons run runs ih =>
      obtain ⟨time, down⟩ := run
      cases down with
      | false => exact List.forall_mem_cons.mpr ⟨Or.inl rfl, ih⟩
      | true => exact List.forall_mem_cons.mpr ⟨Or.inr rfl, ih⟩

theorem pedalSettings_isPedalValue (length : α) (points : List (Point α)) :
    ∀ s ∈ pedalSettings length points, IsPedalValue s.2 := by
  rw [pedalSettings]
  split
  · exact List.forall_mem_nil _
  · exact List.forall_mem_cons.mpr ⟨Or.inl rfl, edges_isPedalValue _ _⟩
  · exact List.forall_mem_cons.mpr ⟨Or.inl rfl, edges_isPedalValue _ _⟩

theorem mem_emit {controller channel : Int} {length : α} {settings : List (Setting α)}
    {c : ControlChange α} (h : c ∈ emit controller channel length settings) :
    c.controller = controller ∧ ∃ s ∈ settings, c.value = s.2 := by
  obtain ⟨s, hs, rfl⟩ := List.mem_map.mp h
  exact ⟨rfl, s, (changes_sublist none settings).subset hs, rfl⟩

/-- Only the pedal is followed on its controller, and it is put up or down on any other. -/
theorem control_keepsPedal (cs : Controllers α) (length : α) (channel : Int) (curve : Curve α) :
    ∀ c ∈ control cs length channel curve, c.KeepsPedal := by
  intro c hc hpedal
  rw [control] at hc
  split at hc
  · exact absurd hc List.not_mem_nil
  · dsimp only at hc
    split at hc
    · exact absurd hc List.not_mem_nil
    · split at hc
      · obtain ⟨-, s, hs, hvalue⟩ := mem_emit hc
        rw [hvalue]
        exact pedalSettings_isPedalValue length _ s hs
      · -- A curve that leads to the pedal's controller is followed as the pedal.
        rename_i controller _ _ hother
        have hne : controller ≠ pedal := by
          rintro rfl
          simp [isPedal] at hother
        split at hc
        · obtain ⟨hcontroller, -⟩ := mem_emit hc
          exact absurd (hcontroller.symm.trans hpedal) hne
        · obtain ⟨s, -, rfl⟩ := List.mem_map.mp hc
          exact absurd hpedal hne

theorem controlAll_keepsPedal (cs : Controllers α) (length : α) (channel : Int)
    (curves : List (Curve α)) : ∀ c ∈ controlAll cs length channel curves, c.KeepsPedal := by
  intro c hc
  obtain ⟨curve, -, hc⟩ := List.mem_flatMap.mp hc
  exact control_keepsPedal cs length channel curve c hc

end Curve

/-! ### Articulations -/

theorem ArticulationChange.name_ne_nil {m : Meter} {raw : Value α} {c : ArticulationChange α}
    (h : read? m raw = some c) : c.name ≠ [] := by
  simp only [read?, bind, Option.bind_eq_some_iff] at h
  obtain ⟨name, -, h⟩ := h
  split at h
  · cases h
  · rename_i hne
    simp only [pure, Option.bind_eq_some_iff] at h
    obtain ⟨t, -, h⟩ := h
    cases h
    simpa using hne

namespace Articulator

variable {s : Articulator α}

/-- Every control change that is delivered answers an articulation with a name. -/
theorem exists_named_of_control {notes : List (Note α)} {timeline : List (ArticulationChange α)}
    (ht : ∀ c ∈ timeline, c.name ≠ []) {general : Text} {c : ControlChange α}
    (h : c ∈ (s.resolve notes timeline general).controls) :
    ∃ a time, s.Named a ∧ s.signal? a time = some (.control c) := by
  rw [resolve] at h
  split at h
  · obtain ⟨w, hw, hwc⟩ := exists_signal_of_control h
    have hwanted : w ∈ (s.byTimeline (notes.map s.erase) timeline).2.1 := hw
    exact ⟨w.1, w.2, mem_byTimeline ht hwanted, hwc⟩
  · split at h
    · obtain ⟨w, hw, hwc⟩ := exists_signal_of_control h
      exact ⟨w.1, w.2, mem_runHeads hw, hwc⟩
    · split at h
      · exact absurd h List.not_mem_nil
      · rename_i hgeneral
        split at h
        · exact absurd h List.not_mem_nil
        · rename_i a ha
          obtain ⟨w, hw, hwc⟩ := exists_signal_of_control h
          cases List.mem_singleton.mp hw
          exact ⟨a, 0.0, ⟨general, by simpa using hgeneral, ha⟩, hwc⟩

theorem signal?_eq_control {a : Articulation} {time : α} {c : ControlChange α}
    (h : s.signal? a time = some (.control c)) : s.articulations.delivery = .control ∧
      c.controller = clampData s.articulations.controller ∧
      ∃ v ∈ a.controlValue, c.value = clampData v := by
  rw [signal?] at h
  cases hd : s.articulations.delivery <;> simp only [hd] at h
  case control =>
    obtain ⟨v, hv, hc⟩ := Option.map_eq_some_iff.mp h
    cases hc
    exact ⟨rfl, rfl, v, hv, rfl⟩
  case keyswitch =>
    obtain ⟨pitch, hpitch, hc⟩ := Option.map_eq_some_iff.mp h
    cases hc
  all_goals cases h

/-- A part without notes and changes tells the articulation that it is called by. -/
theorem exists_control_of_general {general : Text} (hg : general ≠ []) {a : Articulation}
    (ha : s.articulations.find? general = some a) (hd : s.articulations.delivery = .control)
    {v : Int} (hv : a.controlValue = some v) : ∃ c ∈ (s.resolve [] [] general).controls,
      c.controller = clampData s.articulations.controller ∧ c.value = clampData v := by
  refine ⟨⟨s.clampTime (0.0 - s.articulations.preRoll), clampData s.articulations.controller,
    clampData v, s.channelOf a⟩, ?_, rfl, rfl⟩
  have hempty : general.isEmpty = false := by simpa using hg
  rw [resolve]
  simp [hempty, ha, assemble, signal?, hd, hv, Signal.control?]

end Articulator

/-! ### Parts -/

theorem Score.phrased_nil {i : Instrument α} {s : Settings α} {candidate : Value α}
    (h : (ofCandidate i s candidate).taken.notes = []) :
    (ofCandidate i s candidate).phrased.notes = [] := by
  rw [List.eq_nil_iff_forall_not_mem]
  intro n hn
  obtain ⟨b, hb, -⟩ := Note.phrase_drawnFrom _ _ _ _ _ n hn
  obtain ⟨a, ha, -⟩ := Note.separate_drawnFrom _ b hb
  obtain ⟨before, hperm, hmoves⟩ := snap_moves i s (ofCandidate i s candidate).taken.notes
  obtain ⟨m, hm, -⟩ := Note.exists_mem_of_forall₂ hmoves ha
  rw [h, List.perm_nil] at hperm
  rw [hperm] at hm
  exact absurd hm List.not_mem_nil

theorem Score.timeline_named (i : Instrument α) (s : Settings α) (candidate : Value α) :
    ∀ c ∈ (ofCandidate i s candidate).timeline, c.name ≠ [] := by
  intro c hc
  obtain ⟨raw, -, hraw⟩ := List.mem_filterMap.mp ((List.mergeSort_perm _ _).mem_iff.mp hc)
  exact ArticulationChange.name_ne_nil hraw

/-- A candidate that only says what the part is called. -/
def Part.called (name : Text) : Value α := .object [("articulation", .string name)]

theorem Score.delivered_called (i : Instrument α) (s : Settings α) (name : Text) :
    (ofCandidate i s (Part.called name)).delivered =
      (⟨i.articulations, i.channel, s.span⟩ : Articulator α).resolve [] [] name := by
  have htaken : (ofCandidate i s (Part.called name)).taken.notes = [] := by
    have hnotes : elementsOf "notes" (Part.called name : Value α) = [] := rfl
    have hdrums : elementsOf "drums" (Part.called name : Value α) = [] := rfl
    change (takeIn i s (Part.called name) {}).notes = []
    rw [takeIn]
    simp only [hnotes, hdrums, List.append_nil]
    split
    · simp only [Note.takeIn_nil, Hit.takeIn_nil, List.append_nil]
    · exact Note.takeIn_nil _ _ _
  have htimeline : ArticulationChange.readAll s.meter (.null : Value α) = [] := by
    simp [ArticulationChange.readAll, ArticulationChange.sort, Value.elements]
  change Articulator.resolve _ (ofCandidate i s (Part.called name)).phrased.notes
    (ArticulationChange.readAll s.meter .null) name = _
  rw [phrased_nil htaken, htimeline]

/-- Every control change of a part is one of MIDI, and one on the pedal's controller puts the pedal
up or down unless an articulation is delivered by it. All of them do, for all candidates, if and
only if the articulations of the instrument do. -/
theorem Part.compile_keepsPedal {raw : Value α} {i : Instrument α}
    (hi : Instrument.read? raw = some i) {s : Settings α}
    (hs : Quantity.isFinite s.length = true) :
    (∀ candidate part, Part.compile i s candidate = .ok part → (∀ c ∈ part.controls, c.Sendable) ∧
      ∃ curved : List (ControlChange α),
        part.controls = (Score.ofCandidate i s candidate).delivered.controls ++ curved ∧
        ∀ c ∈ curved, c.KeepsPedal) ∧
    ((∀ candidate part, Part.compile i s candidate = .ok part → ∀ c ∈ part.controls, c.KeepsPedal) ↔
      i.articulations.KeepPedal) := by
  have hcurved (candidate : Value α) (part : Part α) (h : Part.compile i s candidate = .ok part) :
      ∃ curved : List (ControlChange α),
        part.controls = (Score.ofCandidate i s candidate).delivered.controls ++ curved ∧
        ∀ c ∈ curved, c.KeepsPedal := by
    rw [compile_eq_ofScore h]
    exact ⟨_, rfl, Curve.controlAll_keepsPedal _ _ _ _⟩
  refine ⟨fun candidate part h => ⟨(compile_sendable hi h).controls, hcurved candidate part h⟩,
    ?_, ?_⟩
  · intro h hd hpedal name hname a ha v hv
    have hobject : (called name : Value α).isObject = true := rfl
    have hok := compile_of_isFinite i hobject hs
    obtain ⟨c, hc, hcontroller, hvalue⟩ := Articulator.exists_control_of_general
      (s := ⟨i.articulations, i.channel, s.span⟩) hname ha hd hv
    rw [← Score.delivered_called] at hc
    rw [← hvalue]
    exact h _ _ hok c (List.mem_append_left _ hc) (hcontroller.trans hpedal)
  · intro h candidate part hpart c hc
    obtain ⟨curved, hcontrols, hkeeps⟩ := hcurved candidate part hpart
    rw [hcontrols] at hc
    rcases List.mem_append.mp hc with hc | hc
    · intro hpedal
      obtain ⟨a, time, ⟨name, hname, ha⟩, hsignal⟩ := Articulator.exists_named_of_control
        (Score.timeline_named i s candidate) hc
      obtain ⟨hd, hcontroller, v, hv, hvalue⟩ := Articulator.signal?_eq_control hsignal
      rw [hvalue]
      exact h hd (hcontroller.symm.trans hpedal) name hname a ha v hv
    · exact hkeeps c hc

/-- A piano whose two articulations lift and press the pedal. -/
def pedalledPiano : Value Rat :=
  .object [("articulations", .object [("mode", .string "cc"), ("cc_number", .number 64),
    ("map", .object [("dry", .object [("cc_value", .number 0)]),
      ("wet", .object [("cc_value", .number 127)])])])]

def pianist : Instrument Rat := (Instrument.read? pedalledPiano).get (by decide)

theorem pianist_keepsPedal : Instrument.read? pedalledPiano = some pianist ∧
    Quantity.isFinite (4 : Rat) = true ∧
    (∀ candidate part, Part.compile pianist { length := 4 } candidate = .ok part →
      (∀ c ∈ part.controls, c.Sendable) ∧ ∃ curved : List (ControlChange Rat),
        part.controls =
          (Score.ofCandidate pianist { length := 4 } candidate).delivered.controls ++ curved ∧
        ∀ c ∈ curved, c.KeepsPedal) ∧
    ((∀ candidate part, Part.compile pianist { length := 4 } candidate = .ok part →
      ∀ c ∈ part.controls, c.KeepsPedal) ↔ pianist.articulations.KeepPedal) := by
  have hread : Instrument.read? pedalledPiano = some pianist := (Option.some_get _).symm
  exact ⟨hread, rfl, Part.compile_keepsPedal hread rfl⟩

end MusicPart
