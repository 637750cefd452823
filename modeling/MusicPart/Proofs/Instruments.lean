import MusicPart.Instrument.Reader
import MusicPart.Proofs.Bounds

/-!
# Instruments

What reading an instrument promises, whatever its description leaves out or gets wrong.
-/

namespace MusicPart.Instrument

open Json (Value)

variable {α : Type} [Quantity α]

theorem range?_sound {v : Value α} {r : PitchRange} (h : range? v = some r) : r.Sound := by
  unfold range? at h
  split at h
  · rename_i a b
    obtain ⟨x, -, h⟩ := Option.bind_eq_some_iff.mp h
    obtain ⟨y, -, h⟩ := Option.bind_eq_some_iff.mp h
    have hx := Midi.clamp_mem x (show (0 : Int) ≤ 127 by decide)
    have hy := Midi.clamp_mem y (show (0 : Int) ≤ 127 by decide)
    rw [Midi.clampData] at h
    dsimp only at h
    split at h
    · cases h
      exact ⟨hx.1, by simp only; omega, hy.2⟩
    · cases h
      exact ⟨hy.1, by simp only; omega, hx.2⟩
  · cases h

theorem atLeast_le (bound x : Rat) : bound ≤ atLeast bound x := by
  rw [atLeast]
  split
  · exact le_rfl
  · rename_i h
    exact not_lt.mp h

/-- Pitches and channels within the bounds of MIDI. -/
structure Tuned (i : Instrument α) : Prop where
  range : i.range.Sound
  channel : 1 ≤ i.channel ∧ i.channel ≤ 16

theorem Tuned.withRange {i : Instrument α} (h : i.Tuned) (raw : Value α) :
    (withRange i raw).Tuned := by
  refine ⟨?_, h.channel⟩
  rw [Instrument.withRange]
  cases hr : (raw.find? "absolute").bind range? with
  | none => exact h.range
  | some r =>
      obtain ⟨v, -, hv⟩ := Option.bind_eq_some_iff.mp hr
      exact range?_sound hv

theorem Tuned.withMidi {i : Instrument α} (h : i.Tuned) (raw : Value α) :
    (withMidi i raw).Tuned := by
  refine ⟨h.range, ?_⟩
  rw [Instrument.withMidi]
  cases int? raw "channel" with
  | none => exact h.channel
  | some n => exact Midi.clamp_mem n (by decide)

theorem plain_tuned : (plain : Instrument α).Tuned := by
  have hrange : ({} : PitchRange).Sound := ⟨by decide, by decide, by decide⟩
  have hchannel : (1 : Int) ≤ 1 ∧ (1 : Int) ≤ 16 := by decide
  exact ⟨hrange, hchannel⟩

/-- Reading an optional section keeps what holds of the settings before it. -/
theorem getD_map {β γ : Type} (P : γ → Prop) {x : Option β} {f : β → γ} {d : γ}
    (hd : P d) (hf : ∀ b, P (f b)) : P ((x.map f).getD d) := by
  cases x with
  | none => exact hd
  | some b => exact hf b

theorem read?_tuned {raw : Value α} {i : Instrument α} (h : read? raw = some i) : i.Tuned := by
  rw [read?] at h
  split at h
  · cases h
  · extract_lets _ base ranged midi at h
    have hplain : (plain : Instrument α).Tuned := plain_tuned
    have hbase : base.Tuned := ⟨hplain.range, hplain.channel⟩
    have hranged : ranged.Tuned := getD_map Tuned hbase hbase.withRange
    have hmidi : midi.Tuned := getD_map Tuned hranged hranged.withMidi
    cases h
    exact ⟨hmidi.range, hmidi.channel⟩

/-- The stamina of an instrument is the plain one or the one that its description has a section
for. -/
theorem read?_stamina {raw : Value α} {i : Instrument α} (h : read? raw = some i) :
    i.stamina = plainStamina ∨ ∃ v, i.stamina = readStamina v := by
  rw [read?] at h
  split at h
  · cases h
  · extract_lets _ base ranged midi at h
    let Plain (i : Instrument α) : Prop := i.stamina = plainStamina
    have hranged : Plain ranged := getD_map Plain rfl fun _ => rfl
    have hmidi : Plain midi := getD_map Plain hranged fun _ => hranged
    cases h
    exact getD_map (fun s => s = plainStamina ∨ ∃ v, s = readStamina v) (Or.inl hmidi)
      fun v => Or.inr ⟨v, rfl⟩

/-- What splitting relies on in a stamina. -/
structure Lasts (s : Stamina Rat) : Prop where
  breath : Note.shortest ≤ s.breath
  breathGap : 0 ≤ s.breathGap
  maxPieces : 1 ≤ s.maxPieces ∧ s.maxPieces ≤ 1000000

theorem plainStamina_lasts : Lasts plainStamina := by
  refine ⟨?_, ?_, by decide, by decide⟩
  · change Note.shortest ≤ (4.0 : Rat)
    rw [Note.shortest_eq]
    norm_num
  · change (0 : Rat) ≤ 0.25
    norm_num

theorem readStamina_lasts (v : Value Rat) : Lasts (readStamina v) := by
  have hpieces : (int? v "max_segments").getD (plainStamina : Stamina Rat).maxPieces ≤ 1000000 := by
    refine getD_map (fun n : Int => n ≤ 1000000) plainStamina_lasts.maxPieces.2 fun x => ?_
    exact Exact.saturate_le x
  refine ⟨atLeast_le _ _, Exact.zero_eq.ge.trans (atLeast_le 0.0 _), ?_⟩
  rw [readStamina]
  dsimp only
  split <;> omega

theorem read?_lasts {raw : Value Rat} {i : Instrument Rat} (h : read? raw = some i) :
    Lasts i.stamina := by
  rcases read?_stamina h with hplain | ⟨v, hv⟩
  · exact hplain ▸ plainStamina_lasts
  · exact hv ▸ readStamina_lasts v

/-- What the compilation of notes relies on in an instrument. -/
structure Sound (i : Instrument Rat) : Prop where
  range : i.range.Sound
  channel : 1 ≤ i.channel ∧ i.channel ≤ 16
  breath : Note.shortest ≤ i.stamina.breath

theorem read?_sound {raw : Value Rat} {i : Instrument Rat} (h : read? raw = some i) : i.Sound :=
  ⟨(read?_tuned h).range, (read?_tuned h).channel, (read?_lasts h).breath⟩

end MusicPart.Instrument
