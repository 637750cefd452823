import MusicPart.Proofs.CurveTimes
import MusicPart.Proofs.Retiming
import MusicPart.Proofs.Stages

/-!
# Whole numbers

Pitches, velocities, channels, controllers, values and programs of a part are those of MIDI,
whatever arithmetic its times are computed in. Only taking in, snapping and routing touch the
numbers of notes; the stages in between draw notes from notes with other times.
-/

namespace MusicPart

open Json (Value)

variable {α : Type}

/-! ### Bounds -/

namespace Midi

def IsData (n : Int) : Prop := 0 ≤ n ∧ n ≤ 127

def IsVelocity (n : Int) : Prop := 1 ≤ n ∧ n ≤ 127

def IsChannel (n : Int) : Prop := 1 ≤ n ∧ n ≤ 16

theorem isData_clampData (n : Int) : IsData (clampData n) := clamp_mem n (by decide)

theorem isVelocity_clampVelocity (n : Int) : IsVelocity (clampVelocity n) :=
  clamp_mem n (by decide)

theorem isChannel_clamp (n : Int) : IsChannel (clamp n 1 16) := clamp_mem n (by decide)

theorem isChannel_channelOr [Quantity α] {default : Int} (h : IsChannel default)
    (v : Option (Value α)) : IsChannel (channelOr default v) := by
  rw [channelOr]
  split
  · exact h
  · simp only [Bool.and_eq_true, decide_eq_true_eq, IsChannel] at h ⊢
    split_ifs <;> omega

end Midi

open Midi

theorem PitchRange.Sound.isData {r : PitchRange} (h : r.Sound) {pitch : Int}
    (hp : r.Within pitch) : IsData pitch :=
  ⟨h.1.trans hp.1, hp.2.trans h.2.2⟩

structure Note.Sendable (n : Note α) : Prop where
  pitch : IsData n.pitch
  velocity : IsVelocity n.velocity
  channel : IsChannel n.channel

structure ControlChange.Sendable (c : ControlChange α) : Prop where
  controller : IsData c.controller
  value : IsData c.value
  channel : IsChannel c.channel

structure Keyswitch.Sendable (k : Keyswitch α) : Prop where
  pitch : IsData k.pitch
  velocity : IsVelocity k.velocity
  channel : IsChannel k.channel

structure ProgramChange.Sendable (p : ProgramChange α) : Prop where
  program : IsData p.program
  channel : IsChannel p.channel

structure Delivered.Sendable (d : Delivered α) : Prop where
  notes : ∀ n ∈ d.notes, n.Sendable
  keyswitches : ∀ k ∈ d.keyswitches, k.Sendable
  controls : ∀ c ∈ d.controls, c.Sendable
  programs : ∀ p ∈ d.programs, p.Sendable

structure Part.Sendable (p : Part α) : Prop where
  notes : ∀ n ∈ p.notes, n.Sendable
  keyswitches : ∀ k ∈ p.keyswitches, k.Sendable
  controls : ∀ c ∈ p.controls, c.Sendable
  programs : ∀ c ∈ p.programs, c.Sendable

/-! ### Notes that move -/

theorem Note.DrawnFrom.sendable {xs ys : List (Note α)} (h : DrawnFrom xs ys)
    (hx : ∀ n ∈ xs, n.Sendable) : ∀ n ∈ ys, n.Sendable := by
  intro n hn
  obtain ⟨m, hm, hmn⟩ := h n hn
  have hsend := hx m hm
  rw [hmn]
  exact ⟨hsend.pitch, hsend.velocity, hsend.channel⟩

theorem Harmony.Moves.sendable {range : PitchRange} {a b : Note α} (h : Moves range a b)
    (hr : range.Sound) (ha : a.Sendable) : b.Sendable where
  pitch := by
    rcases h.pitch with hp | ⟨tones, pitch, direction, hp⟩
    · exact hp ▸ ha.pitch
    · exact hp ▸ hr.isData (snapped_within hr tones pitch direction)
  velocity := by
    rw [h.same]
    exact ha.velocity
  channel := by
    rw [h.same]
    exact ha.channel

/-! ### Channels -/

namespace Articulator

variable {s : Articulator α} {notes : List (Note α)}

theorem route_sendable {n : Note α} (hn : n.Sendable) {channel : Int} (h : IsChannel channel) :
    (route channel n).Sendable :=
  ⟨hn.pitch, hn.velocity, h⟩

theorem erase_sendable (h : ∀ n ∈ notes, n.Sendable) :
    ∀ n ∈ notes.map s.erase, n.Sendable := by
  intro n hn
  obtain ⟨m, hm, rfl⟩ := List.mem_map.mp hn
  have hsend := h m hm
  rw [erase]
  split
  · exact ⟨hsend.pitch, hsend.velocity, hsend.channel⟩
  · exact hsend

theorem carry_sendable (hs : IsChannel s.channel) {channel : Option Int}
    (hc : ∀ c ∈ channel, IsChannel c) (h : ∀ n ∈ notes, n.Sendable) :
    ∀ n ∈ s.carry channel notes, n.Sendable := by
  induction notes generalizing channel with
  | nil => exact h
  | cons n notes ih =>
      rw [carry]
      generalize hnext : (((s.articulations.find? n.tag).filter (fun _ => isTagged n)).map
        s.channelOf).or channel = next
      -- The channel that is carried on is one of the instrument's, or none yet.
      have hnext : ∀ c ∈ next, IsChannel c := by
        intro c hcn
        rw [← hnext] at hcn
        rcases Option.or_eq_some_iff.mp hcn with hx | ⟨-, hx⟩
        · obtain ⟨x, -, rfl⟩ := Option.map_eq_some_iff.mp hx
          exact s.channelOf_mem hs x
        · exact hc c hx
      have hn := h n List.mem_cons_self
      refine List.forall_mem_cons.mpr ⟨?_, ih hnext fun m hm => h m (List.mem_cons_of_mem n hm)⟩
      cases next with
      | none => exact hn
      | some c => exact route_sendable hn (hnext c rfl)

theorem reroute_sendable (hs : IsChannel s.channel) (h : ∀ n ∈ notes, n.Sendable)
    (a : Articulation) : ∀ n ∈ (if s.routesByChannel then notes.map (route (s.channelOf a))
      else notes), n.Sendable := by
  split
  · intro n hn
    obtain ⟨m, hm, rfl⟩ := List.mem_map.mp hn
    exact route_sendable (h m hm) (s.channelOf_mem hs a)
  · exact h

theorem byTimeline_sendable (hs : IsChannel s.channel) (h : ∀ n ∈ notes, n.Sendable)
    (timeline : List (ArticulationChange α)) :
    ∀ n ∈ (s.byTimeline notes timeline).1, n.Sendable := by
  rw [byTimeline]
  dsimp only
  split
  · exact reroute_sendable hs h _
  · exact h

end Articulator

variable [Quantity α]

/-! ### Taking in -/

theorem Note.bound_sendable (length : α) (i : Instrument α) (n : Note α) :
    (bound length i n).Sendable where
  pitch := isData_clampData _
  velocity := isVelocity_clampVelocity _
  channel := isChannel_clamp _

theorem Note.takeIn_sendable (length : α) (m : Meter) (i : Instrument α) (raws : List (Value α)) :
    ∀ n ∈ (takeIn length m i raws).notes, n.Sendable := by
  have hbound (notes : List (Note α)) :
      ∀ n ∈ (boundAll length i raws notes).notes, n.Sendable := by
    rw [boundAll_notes]
    intro n hn
    obtain ⟨m, -, rfl⟩ := List.mem_map.mp hn
    exact bound_sendable length i m
  rw [takeIn]
  split
  · generalize raws.filterMap (read? m i.channel) = notes
    dsimp only
    split
    · exact (monophonic_drawnFrom _).sendable (hbound notes)
    · exact hbound notes
  · exact List.forall_mem_nil _

theorem Hit.takeIn_sendable (length : α) (m : Meter) {i : Instrument α} (hi : i.Tuned)
    (raws : List (Value α)) : ∀ n ∈ (Hit.takeIn length m i raws).notes, n.Sendable := by
  intro n hn
  obtain ⟨-, start, duration, _, _, _, rfl⟩ := Hit.exists_of_mem_takeIn hn
  exact ⟨isData_clampData _, isVelocity_clampVelocity _, isChannel_channelOr hi.channel _⟩

theorem Score.takeIn_sendable {i : Instrument α} (hi : i.Tuned) (s : Settings α)
    (candidate : Value α) (expansion : Pattern.Expansion α) :
    ∀ n ∈ (takeIn i s candidate expansion).notes, n.Sendable := by
  rw [takeIn]
  dsimp only
  split
  · intro n hn
    rcases List.mem_append.mp hn with hn | hn
    · exact Note.takeIn_sendable _ _ _ _ n hn
    · exact Hit.takeIn_sendable _ _ hi _ n hn
  · exact Note.takeIn_sendable _ _ _ _

/-! ### Delivering -/

namespace Signal

/-- What is sent is made of numbers of MIDI. -/
def Sendable : Signal α → Prop
  | keyswitch e => e.Sendable
  | control e => e.Sendable
  | program e => e.Sendable

end Signal

namespace Articulator

variable {s : Articulator α} {notes : List (Note α)}

theorem signal?_sendable (hs : IsChannel s.channel) {a : Articulation} {time : α} {x : Signal α}
    (h : s.signal? a time = some x) : x.Sendable := by
  have hchannel := s.channelOf_mem hs a
  rw [signal?] at h
  cases hd : s.articulations.delivery <;> simp only [hd] at h
  · exact nomatch h
  · obtain ⟨pitch, -, rfl⟩ := Option.map_eq_some_iff.mp h
    exact ⟨isData_clampData _, isVelocity_clampVelocity _, hchannel⟩
  · obtain ⟨value, -, rfl⟩ := Option.map_eq_some_iff.mp h
    exact ⟨isData_clampData _, isData_clampData _, hchannel⟩
  · cases h
    exact ⟨isData_clampData _, hchannel⟩
  · exact nomatch h

theorem assemble_sendable (hs : IsChannel s.channel) (h : ∀ n ∈ notes, n.Sendable)
    (wanted : List (Articulation × α)) (label : Option Text) (unknown : Nat) :
    (s.assemble notes wanted label unknown).Sendable := by
  refine ⟨h, fun k hk => ?_, fun c hc => ?_, fun p hp => ?_⟩
  · obtain ⟨w, -, e, hw, hke⟩ := exists_signal_of_keyswitch hk
    have hsend : e.Sendable := signal?_sendable hs hw
    rw [hke]
    exact ⟨hsend.pitch, hsend.velocity, hsend.channel⟩
  · obtain ⟨w, -, hw⟩ := exists_signal_of_control hc
    exact signal?_sendable hs hw
  · obtain ⟨w, -, hw⟩ := exists_signal_of_program hp
    exact signal?_sendable hs hw

theorem resolve_sendable (hs : IsChannel s.channel) (h : ∀ n ∈ notes, n.Sendable)
    (timeline : List (ArticulationChange α)) (general : Text) :
    (s.resolve notes timeline general).Sendable := by
  have herased : ∀ n ∈ notes.map s.erase, n.Sendable := erase_sendable h
  rw [resolve]
  split
  · exact assemble_sendable hs (byTimeline_sendable hs herased timeline) _ _ _
  · split
    · have hsorted : ∀ n ∈ Note.sortByStart (notes.map s.erase), n.Sendable := fun n hn =>
        herased n ((Note.sortByStart_perm _).mem_iff.mp hn)
      refine assemble_sendable hs ?_ _ _ _
      split
      · exact carry_sendable hs (by simp) hsorted
      · exact hsorted
    · split
      · exact assemble_sendable hs herased _ _ _
      · split
        · exact assemble_sendable hs herased _ _ _
        · exact assemble_sendable hs (reroute_sendable hs herased _) _ _ _

end Articulator

theorem Score.delivered_sendable {i : Instrument α} (hi : i.Tuned) (s : Settings α)
    (candidate : Value α) : (ofCandidate i s candidate).delivered.Sendable := by
  have htaken : ∀ n ∈ (ofCandidate i s candidate).taken.notes, n.Sendable :=
    takeIn_sendable hi s candidate _
  have hsnapped : ∀ n ∈ (ofCandidate i s candidate).snapped.notes, n.Sendable := by
    obtain ⟨before, hperm, hmoves⟩ := snap_moves i s (ofCandidate i s candidate).taken.notes
    intro n hn
    obtain ⟨m, hm, hmn⟩ := Note.exists_mem_of_forall₂ hmoves hn
    exact hmn.sendable hi.range (htaken m (hperm.mem_iff.mp hm))
  have hseparated : ∀ n ∈ (ofCandidate i s candidate).separated.notes, n.Sendable :=
    (Note.separate_drawnFrom _).sendable hsnapped
  have hphrased : ∀ n ∈ (ofCandidate i s candidate).phrased.notes, n.Sendable :=
    (Note.phrase_drawnFrom _ _ _ _ _).sendable hseparated
  have hchannel : IsChannel (⟨i.articulations, i.channel, s.span⟩ : Articulator α).channel :=
    hi.channel
  exact Articulator.resolve_sendable hchannel hphrased _ _

/-! ### Curves -/

namespace Curve

theorem isData_ofQuantity (x : α) : IsData (ofQuantity x) := isData_clampData _

theorem isData_up : IsData 0 := ⟨by decide, by decide⟩

theorem isData_down : IsData 127 := ⟨by decide, by decide⟩

variable {controller channel : Int}

theorem emit_sendable (hcontroller : IsData controller) (hchannel : IsChannel channel) (length : α)
    {settings : List (Setting α)} (h : ∀ s ∈ settings, IsData s.2) :
    ∀ c ∈ emit controller channel length settings, c.Sendable := by
  intro c hc
  obtain ⟨s, hs, rfl⟩ := List.mem_map.mp hc
  exact ⟨hcontroller, h s ((changes_sublist none settings).subset hs), hchannel⟩

theorem holdSettings_isData (points : List (Point α)) :
    ∀ s ∈ holdSettings points, IsData s.2 := by
  intro s hs
  rcases List.mem_append.mp hs with hs | hs
  · obtain ⟨p, -, rfl⟩ := Option.map_eq_some_iff.mp (Option.mem_toList.mp hs)
    exact isData_ofQuantity p.value
  · obtain ⟨p, -, rfl⟩ := List.mem_map.mp hs
    exact isData_ofQuantity p.value

theorem edges_isData (after : α) (runs : List (α × Bool)) :
    ∀ s ∈ edges after runs, IsData s.2 := by
  induction runs with
  | nil => exact List.forall_mem_nil _
  | cons run runs ih =>
      obtain ⟨time, down⟩ := run
      cases down with
      | false => exact List.forall_mem_cons.mpr ⟨isData_up, ih⟩
      | true => exact List.forall_mem_cons.mpr ⟨isData_down, ih⟩

theorem pedalSettings_isData (length : α) (points : List (Point α)) :
    ∀ s ∈ pedalSettings length points, IsData s.2 := by
  rw [pedalSettings]
  split
  · exact List.forall_mem_nil _
  · exact List.forall_mem_cons.mpr ⟨isData_up, edges_isData _ _⟩
  · exact List.forall_mem_cons.mpr ⟨isData_up, edges_isData _ _⟩

theorem samples_isData (i : Interpolation) (length step : α) (points : List (Point α)) :
    ∀ s ∈ samples i length step points, IsData s.2 := by
  rw [samples]
  split
  · exact List.forall_mem_nil _
  · intro s hs
    obtain ⟨k, -, rfl⟩ := List.mem_map.mp hs
    exact isData_ofQuantity _

theorem sampledControl_sendable (i : Interpolation) (hcontroller : IsData controller) (length : α)
    (hchannel : IsChannel channel) (step : α) (sparse : Bool) (points : List (Point α)) :
    ∀ c ∈ sampledControl i controller length channel step sparse points, c.Sendable := by
  intro c hc
  obtain ⟨s, hs, rfl⟩ := List.mem_map.mp hc
  refine ⟨hcontroller, samples_isData i length step points s ?_, hchannel⟩
  split at hs
  · exact (changes_sublist none _).subset hs
  · exact hs

theorem control_sendable (c : Controllers α) (length : α) (hchannel : IsChannel channel)
    (curve : Curve α) : ∀ e ∈ control c length channel curve, e.Sendable := by
  rw [control]
  split
  · exact List.forall_mem_nil _
  · rename_i controller _
    dsimp only
    split
    · exact List.forall_mem_nil _
    · rename_i hbounds
      have hcontroller : IsData controller := by
        rw [Bool.or_eq_true, decide_eq_true_eq, decide_eq_true_eq, not_or] at hbounds
        exact ⟨not_lt.mp hbounds.1, not_lt.mp hbounds.2⟩
      split
      · exact emit_sendable hcontroller hchannel length (pedalSettings_isData length _)
      · split
        · exact emit_sendable hcontroller hchannel length (holdSettings_isData _)
        · exact sampledControl_sendable _ hcontroller length hchannel _ _ _

theorem controlAll_sendable (c : Controllers α) (length : α) (hchannel : IsChannel channel)
    (curves : List (Curve α)) : ∀ e ∈ controlAll c length channel curves, e.Sendable := by
  intro e he
  obtain ⟨curve, -, he⟩ := List.mem_flatMap.mp he
  exact control_sendable c length hchannel curve e he

end Curve

/-! ### Parts -/

/-- Whatever the candidate says, a part holds numbers of MIDI only. -/
theorem Part.compile_sendable {raw : Value α} {i : Instrument α}
    (hi : Instrument.read? raw = some i) {s : Settings α} {candidate : Value α} {part : Part α}
    (h : compile i s candidate = .ok part) : part.Sendable := by
  have htuned := Instrument.read?_tuned hi
  have hdelivered := Score.delivered_sendable htuned s candidate
  obtain rfl := compile_eq_ofScore h
  refine ⟨fun n hn => ?_, hdelivered.keyswitches, fun c hc => ?_, hdelivered.programs⟩
  · exact hdelivered.notes n ((Note.sort_perm _).mem_iff.mp hn)
  · rcases List.mem_append.mp hc with hc | hc
    · exact hdelivered.controls c hc
    · exact Curve.controlAll_sendable _ _ htuned.channel _ c hc

end MusicPart
