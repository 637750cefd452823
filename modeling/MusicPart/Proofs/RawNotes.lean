import MusicPart.Note.Reader
import MusicPart.Proofs.Laws

/-!
# Raw notes

What a raw note tells besides its time does not depend on it, except for the duration that it has by
default. A note that is read starts at the time that is told, and that time is finite.
-/

namespace MusicPart

open Json (Value)

variable {α : Type} [Quantity α]

theorem bind_ite_filter {β γ : Type} (o : Option β) (p : β → Bool) (b : Bool)
    (f : β → Option γ) : (o.bind fun x => if p x = false ∨ b = false then none else f x) =
      if b = true then (o.filter p).bind f else none := by
  cases o with
  | none => simp
  | some x => cases hp : p x <;> cases b <;> simp [Option.filter, hp]

namespace Note

def durationOr? (default : α) (raw : Value α) : Option α :=
  match raw.first? ["dur_q", "dur", "duration"] with
  | some v => NoteValue.ofValue? v
  | none => some default

def velocityOr? (default : Int) (raw : Value α) : Option Int :=
  match raw.first? ["vel", "velocity", "dyn", "dynamic"] with
  | some v => DynamicMark.velocityOfValue? v
  | none => some default

/-- A raw note read at time zero, with the duration that it has by default. -/
def untimed? (channel : Int) (default : α) (raw : Value α) : Option (Note α) := do
  let written ← shorthand? (raw.first? ["pitch", "note", "midi"])
  let duration ← (durationOr? (written.duration.getD default) raw).filter Quantity.isFinite
  let velocity ← velocityOr? (written.velocity.getD defaultVelocity) raw
  return ⟨0.0, duration, written.pitch, velocity,
    Midi.channelOr channel (raw.first? ["chan", "channel"]), tagOf raw⟩

/-- A duration told by a member, or along with the pitch. -/
def TellsDuration (raw : Value α) : Prop :=
  (raw.first? ["dur_q", "dur", "duration"]).isSome = true ∨
    ∃ written ∈ (shorthand? (raw.first? ["pitch", "note", "midi"]) : Option (Shorthand α)),
      written.duration.isSome = true

theorem read?_eq (m : Meter) (channel : Int) {raw : Value α} (h : raw.isObject = true) :
    read? m channel raw = (Position.onset? m raw).bind fun start =>
      if Quantity.isFinite start then
        (untimed? channel (defaultDuration raw) raw).map fun n => { n with start }
      else none := by
  simp only [read?, untimed?, h, Bool.not_true, Bool.false_eq_true, if_false, Option.bind_eq_bind,
    Option.pure_def, Option.bind_some]
  congr 1
  funext start
  cases shorthand? (raw.first? ["pitch", "note", "midi"]) with
  | none => simp
  | some written =>
      -- The durations and velocities that are told are read, the others are there from the start.
      cases hdur : raw.first? ["dur_q", "dur", "duration"] <;>
        cases hvel : raw.first? ["vel", "velocity", "dyn", "dynamic"] <;>
          simp [durationOr?, velocityOr?, hdur, hvel]
      · rw [← bind_ite_filter, Option.bind_some]
      · rw [← bind_ite_filter, Option.bind_some]
      · rw [← bind_ite_filter]
      · rw [← bind_ite_filter]

/-- A told duration makes the default one irrelevant. -/
theorem untimed?_of_tellsDuration {raw : Value α} (h : TellsDuration raw) (channel : Int)
    (default other : α) : untimed? channel default raw = untimed? channel other raw := by
  rw [untimed?, untimed?]
  cases hw : (shorthand? (raw.first? ["pitch", "note", "midi"]) : Option (Shorthand α)) with
  | none => rfl
  | some written =>
      have hduration : durationOr? (written.duration.getD default) raw =
          durationOr? (written.duration.getD other) raw := by
        rw [durationOr?, durationOr?]
        cases hdur : raw.first? ["dur_q", "dur", "duration"] with
        | some v => rfl
        | none =>
            rcases h with h | ⟨w, hmem, h⟩
            · rw [hdur] at h
              exact nomatch h
            · rw [hw] at hmem
              cases hmem
              obtain ⟨d, hd⟩ := Option.isSome_iff_exists.mp h
              rw [hd]
              rfl
      simp only [Option.bind_eq_bind, Option.bind_some, hduration]

/-- What is not told is the default. -/
theorem untimed?_of_not_tellsDuration {raw : Value α} (h : ¬TellsDuration raw) (channel : Int)
    {default other : α} (hd : Quantity.isFinite default = true)
    (ho : Quantity.isFinite other = true) : untimed? channel other raw =
      (untimed? channel default raw).map fun n => { n with duration := other } := by
  rw [untimed?, untimed?]
  cases hw : (shorthand? (raw.first? ["pitch", "note", "midi"]) : Option (Shorthand α)) with
  | none => rfl
  | some written =>
      have hdur : raw.first? ["dur_q", "dur", "duration"] = none := by
        rw [← Option.not_isSome_iff_eq_none]
        exact fun h' => h (Or.inl h')
      have hwritten : written.duration = none := by
        rw [← Option.not_isSome_iff_eq_none]
        exact fun h' => h (Or.inr ⟨written, hw, h'⟩)
      simp [durationOr?, hdur, hwritten, Option.filter, hd, ho]

theorem duration_of_not_tellsDuration {raw : Value α} (h : ¬TellsDuration raw) {channel : Int}
    {default : α} (hd : Quantity.isFinite default = true) {n : Note α}
    (hn : untimed? channel default raw = some n) : n.duration = default := by
  have h' := untimed?_of_not_tellsDuration h channel hd hd
  rw [hn] at h'
  exact congrArg Note.duration (Option.some_inj.mp h')

/-- A note that is read is one at time zero, moved to a finite time that is told. -/
theorem exists_untimed_of_read? {m : Meter} {channel : Int} {raw : Value α} {n : Note α}
    (h : read? m channel raw = some n) : raw.isObject = true ∧
      (Position.onset? m raw = some n.start ∧ Quantity.isFinite n.start = true) ∧
      ∃ untimed, untimed? channel (defaultDuration raw) raw = some untimed ∧
        n = { untimed with start := n.start } := by
  have hobject : raw.isObject = true := by
    by_contra hobject
    simp [read?, hobject] at h
  rw [read?_eq m channel hobject] at h
  obtain ⟨start, hstart, h⟩ := Option.bind_eq_some_iff.mp h
  split at h
  · rename_i hfinite
    obtain ⟨untimed, huntimed, rfl⟩ := Option.map_eq_some_iff.mp h
    exact ⟨hobject, ⟨hstart, hfinite⟩, untimed, huntimed, rfl⟩
  · exact nomatch h

theorem onset_of_read? {m : Meter} {channel : Int} {raw : Value α} {n : Note α}
    (h : read? m channel raw = some n) :
    Position.onset? m raw = some n.start ∧ Quantity.isFinite n.start = true :=
  (exists_untimed_of_read? h).2.1

theorem isObject_of_read? {m : Meter} {channel : Int} {raw : Value α} {n : Note α}
    (h : read? m channel raw = some n) : raw.isObject = true :=
  (exists_untimed_of_read? h).1

/-- The duration is finite, and the one that is told where one is told. -/
theorem duration_of_read? {m : Meter} {channel : Int} {raw : Value α} {n : Note α}
    (h : read? m channel raw = some n) : Quantity.isFinite n.duration = true ∧
      ∀ v, raw.first? ["dur_q", "dur", "duration"] = some v →
        NoteValue.ofValue? v = some n.duration := by
  obtain ⟨-, -, untimed, huntimed, hn⟩ := exists_untimed_of_read? h
  obtain ⟨written, -, huntimed⟩ := Option.bind_eq_some_iff.mp huntimed
  obtain ⟨duration, hduration, huntimed⟩ := Option.bind_eq_some_iff.mp huntimed
  obtain ⟨velocity, -, huntimed⟩ := Option.bind_eq_some_iff.mp huntimed
  obtain ⟨hduration, hfinite⟩ := Option.filter_eq_some_iff.mp hduration
  cases huntimed
  rw [hn]
  refine ⟨hfinite, fun v hv => ?_⟩
  rw [durationOr?, hv] at hduration
  exact hduration

end Note

end MusicPart
