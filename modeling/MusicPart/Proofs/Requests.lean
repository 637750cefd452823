import Mathlib
import MusicPart.Proofs.Documents
import MusicPart.Session

/-!
# Requests

Which texts ask for a part. A document is complete if it has a candidate, an instrument and a length
above zero, and no meter that cannot be read; whatever else stands in it, it is then compiled. That
nothing goes wrong after the reading rests on the numbers of a document, all of which are finite.
-/

namespace MusicPart

open Json (Value bind_eq_ok)

/-! ### Readers that succeed -/

theorem mapError_eq_ok {ε ε' β : Type} {x : Except ε β} {f : ε → ε'} {b : β} :
    x.mapError f = .ok b ↔ x = .ok b := by
  cases x with
  | error e => exact ⟨nofun, nofun⟩
  | ok c => exact ⟨fun h => by cases h; rfl, fun h => by cases h; rfl⟩

theorem elim_error_eq_ok {ε β : Type} {o : Option β} {e : ε} {b : β} :
    o.elim (.error e) .ok = (.ok b : Except ε β) ↔ o = some b := by
  cases o with
  | none => exact ⟨nofun, nofun⟩
  | some c => exact ⟨fun h => by cases h; rfl, fun h => by cases h; rfl⟩

variable {α : Type} [Quantity α]

/-! ### Complete documents -/

namespace Request

/-- The object that a value stands for: a text is parsed, and an object stands for itself. -/
inductive StandsFor : Value α → List (Text × Value α) → Prop
  | text {t : Text} {ms : List (Text × Value α)} (h : Json.parse t = .ok (.object ms)) :
      StandsFor (.string t) ms
  | object {ms : List (Text × Value α)} : StandsFor (.object ms) ms

/-- The quantity that a value tells. -/
inductive Tells : Value α → α → Prop
  | number {x : α} : Tells (.number x) x
  | numeral {t : Text} {x : α} (h : Numeral.finite? (Text.trim t) = some x) : Tells (.string t) x

/-- What a document must be for its part to be compiled. -/
structure Complete (raw : Value α) : Prop where
  isObject : raw.isObject = true
  candidate : ∃ v ms, raw.find? "candidate" = some v ∧ StandsFor v ms
  instrument : ∃ v, raw.find? "profile" = some v ∧ v.isObject = true
  length : ∃ v x, raw.find? "length_q" = some v ∧ Tells v x ∧ 0.0 < x
  meter : ∀ t, raw.find? "time_sig" = some (.string t) → (Meter.read? t).isSome = true

/-! ### Parts of a request -/

variable {raw : Value α}

theorem document_eq_ok {v : Value α} {ms : List (Text × Value α)} :
    document v = .ok (.object ms) ↔ StandsFor v ms := by
  constructor
  · intro h
    cases v with
    | string t => exact .text (mapError_eq_ok.mp h)
    | object ms =>
        cases h
        exact .object
    | _ => cases h
  · rintro (h | _)
    · exact mapError_eq_ok.mpr h
    · rfl

theorem numeric?_eq_some {v : Value α} {x : α} : v.numeric? = some x ↔ Tells v x := by
  constructor
  · intro h
    cases v with
    | number y =>
        cases h
        exact .number
    | string t => exact .numeral h
    | _ => cases h
  · rintro (_ | h)
    · rfl
    · exact h

theorem candidateOf_eq_ok {w : Value α} : candidateOf raw = .ok w ↔
    ∃ v ms, raw.find? "candidate" = some v ∧ StandsFor v ms ∧ w = .object ms := by
  rw [candidateOf]
  cases raw.find? "candidate" with
  | none => simp
  | some v =>
      simp only [Option.some.injEq, bind_eq_ok, exists_and_left, exists_eq_left', ← document_eq_ok]
      constructor
      · rintro ⟨u, hu, h⟩
        cases u with
        | object ms =>
            cases h
            exact ⟨ms, hu, rfl⟩
        | _ => cases h
      · rintro ⟨ms, hms, rfl⟩
        exact ⟨_, hms, rfl⟩

theorem instrumentOf_eq_ok {i : Instrument α} : instrumentOf raw = .ok i ↔
    ∃ v, raw.find? "profile" = some v ∧ Instrument.read? v = some i := by
  rw [instrumentOf]
  cases raw.find? "profile" with
  | none => simp
  | some v => simp only [elim_error_eq_ok, Option.some.injEq, exists_eq_left']

theorem lengthOf_eq_ok {x : α} : lengthOf raw = .ok x ↔
    ∃ v, raw.find? "length_q" = some v ∧ Tells v x ∧ 0.0 < x := by
  rw [lengthOf, elim_error_eq_ok, Option.filter_eq_some_iff, Option.bind_eq_some_iff]
  simp only [numeric?_eq_some, decide_eq_true_eq, ← exists_and_right, and_assoc]

omit [Quantity α] in
theorem exists_meterOf_eq_ok : (∃ m, meterOf raw = .ok m) ↔
    ∀ t, raw.find? "time_sig" = some (.string t) → (Meter.read? t).isSome = true := by
  rw [meterOf]
  cases raw.find? "time_sig" with
  | none => simp
  | some v =>
      cases v with
      | string t => simp [elim_error_eq_ok, Value.text?, Option.isSome_iff_exists]
      | _ => simp [Value.text?]

theorem settingsOf_eq_ok {s : Settings α} (h : settingsOf raw = .ok s) :
    lengthOf raw = .ok s.length ∧ meterOf raw = .ok s.meter := by
  obtain ⟨x, hx, h⟩ := bind_eq_ok.mp h
  obtain ⟨m, hm, h⟩ := bind_eq_ok.mp h
  cases h
  exact ⟨hx, hm⟩

theorem exists_settingsOf_eq_ok {x : α} {m : Meter} (hx : lengthOf raw = .ok x)
    (hm : meterOf raw = .ok m) : ∃ s, settingsOf raw = .ok s :=
  ⟨_, bind_eq_ok.mpr ⟨x, hx, bind_eq_ok.mpr ⟨m, hm, rfl⟩⟩⟩

/-! ### Whole requests -/

theorem read_eq_ok {t : Text} {r : Request α} : read t = .ok r ↔
    ∃ raw : Value α, Json.parse t = .ok raw ∧ raw.isObject = true ∧
      candidateOf raw = .ok r.candidate ∧ instrumentOf raw = .ok r.instrument ∧
      settingsOf raw = .ok r.settings := by
  simp only [read, bind_eq_ok, mapError_eq_ok]
  refine exists_congr fun raw => and_congr_right fun _ => ?_
  cases raw.isObject with
  | false => exact ⟨nofun, nofun⟩
  | true =>
      constructor
      · rintro h
        obtain ⟨candidate, hcandidate, h⟩ := bind_eq_ok.mp h
        obtain ⟨instrument, hinstrument, h⟩ := bind_eq_ok.mp h
        obtain ⟨settings, hsettings, h⟩ := bind_eq_ok.mp h
        cases h
        exact ⟨rfl, hcandidate, hinstrument, hsettings⟩
      · rintro ⟨-, hcandidate, hinstrument, hsettings⟩
        refine bind_eq_ok.mpr ⟨_, hcandidate, bind_eq_ok.mpr ⟨_, hinstrument, ?_⟩⟩
        exact bind_eq_ok.mpr ⟨_, hsettings, rfl⟩

theorem exists_read_eq_ok {t : Text} : (∃ r : Request α, read t = .ok r) ↔
    ∃ raw : Value α, Json.parse t = .ok raw ∧ Complete raw := by
  constructor
  · rintro ⟨r, h⟩
    obtain ⟨raw, hraw, hobject, hcandidate, hinstrument, hsettings⟩ := read_eq_ok.mp h
    obtain ⟨hlength, hmeter⟩ := settingsOf_eq_ok hsettings
    obtain ⟨v, ms, hv, hms, -⟩ := candidateOf_eq_ok.mp hcandidate
    obtain ⟨u, hu, hread⟩ := instrumentOf_eq_ok.mp hinstrument
    obtain ⟨l, hl⟩ := lengthOf_eq_ok.mp hlength
    refine ⟨raw, hraw, hobject, ⟨v, ms, hv, hms⟩, ⟨u, hu, ?_⟩, ⟨l, _, hl⟩,
      exists_meterOf_eq_ok.mp ⟨_, hmeter⟩⟩
    cases u with
    | object _ => rfl
    | _ => cases hread
  · rintro ⟨raw, hraw, hobject, ⟨v, ms, hv, hms⟩, ⟨u, hu, hprofile⟩, ⟨l, x, hx⟩, hmeter⟩
    obtain ⟨i, hi⟩ : ∃ i, Instrument.read? u = some i := by
      cases u with
      | object _ => exact ⟨_, rfl⟩
      | _ => cases hprofile
    obtain ⟨m, hm⟩ := exists_meterOf_eq_ok.mpr hmeter
    obtain ⟨s, hs⟩ := exists_settingsOf_eq_ok (lengthOf_eq_ok.mpr ⟨l, hx⟩) hm
    exact ⟨⟨.object ms, i, s⟩, read_eq_ok.mpr ⟨raw, hraw, hobject,
      candidateOf_eq_ok.mpr ⟨v, ms, hv, hms, rfl⟩, instrumentOf_eq_ok.mpr ⟨u, hu, hi⟩, hs⟩⟩

/-! ### Compiling what was read -/

theorem isObject_candidate_of_read {t : Text} {r : Request α} (h : read t = .ok r) :
    r.candidate.isObject = true := by
  obtain ⟨raw, -, -, hcandidate, -⟩ := read_eq_ok.mp h
  obtain ⟨v, ms, -, -, heq⟩ := candidateOf_eq_ok.mp hcandidate
  rw [heq]
  rfl

theorem isFinite_length_of_read {t : Text} {r : Request α} (h : read t = .ok r) :
    Quantity.isFinite r.settings.length = true := by
  obtain ⟨raw, hraw, -, -, -, hsettings⟩ := read_eq_ok.mp h
  obtain ⟨v, hv, hx, -⟩ := lengthOf_eq_ok.mp (settingsOf_eq_ok hsettings).1
  obtain ⟨n, hreadable⟩ := (Json.readable_parse hraw).of_find? hv
  exact hreadable.isFinite_numeric? (numeric?_eq_some.mpr hx)

/-- A request that was read has a part. -/
theorem compile_of_read {t : Text} {r : Request α} (h : read t = .ok r) :
    ∃ p, r.compile = .ok p := by
  rw [compile, Part.compile, isObject_candidate_of_read h, isFinite_length_of_read h]
  exact ⟨_, rfl⟩

end Request

/-! ### Refusals -/

theorem Text.beforeNul_append_ne_nil {s : Text} (h : beforeNul s ≠ []) (t : Text) :
    beforeNul (s ++ t) ≠ [] := by
  cases s with
  | nil => exact absurd rfl h
  | cons b s =>
      intro hnil
      refine h ?_
      rw [beforeNul, List.takeWhile_eq_nil_iff] at hnil ⊢
      exact fun hlength => hnil (Nat.succ_pos _)

theorem Json.beforeNul_wording_ne_nil (p : Problem) : Text.beforeNul p.wording ≠ [] := by
  cases p <;> decide

theorem Json.beforeNul_message_ne_nil (t : Text) (f : Failure) :
    Text.beforeNul (f.message t) ≠ [] := by
  have hwording := beforeNul_wording_ne_nil f.problem
  rw [Failure.message]
  split
  · exact hwording
  · exact Text.beforeNul_append_ne_nil (Text.beforeNul_append_ne_nil hwording _) _

namespace Refusal

/-- A refusal that is made before the compiling, and that tells something. -/
def ByReader : Refusal → Prop
  | malformed m => Text.beforeNul m ≠ []
  | notCompiled _ => False
  | _ => True

theorem status_ne_ok (e : Refusal) : e.status ≠ .ok := by
  cases e <;> exact nofun

theorem ByReader.status_ne {e : Refusal} (h : e.ByReader) : e.status ≠ .notCompiled := by
  cases e with
  | notCompiled _ => exact False.elim h
  | _ => exact nofun

theorem ByReader.message_ne_nil {e : Refusal} (h : e.ByReader) :
    Text.beforeNul e.message ≠ [] := by
  cases e with
  | malformed m => exact h
  | notCompiled _ => exact False.elim h
  | candidateMalformed m => exact Text.beforeNul_append_ne_nil (by decide) m
  | invalidMeter t => exact Text.beforeNul_append_ne_nil (by decide) t
  | _ => decide

end Refusal

namespace Request

/-- Whatever the reader refuses is for it to refuse. -/
def Reads {β : Type} (x : Except Refusal β) : Prop := ∀ e, x = .error e → e.ByReader

section Reads

variable {β γ : Type}

theorem Reads.ok (b : β) : Reads (.ok b) := nofun

theorem Reads.error {e : Refusal} (h : e.ByReader) : Reads (.error e : Except Refusal β) := by
  intro e' he
  cases he
  exact h

theorem Reads.bind {x : Except Refusal β} {f : β → Except Refusal γ} (hx : Reads x)
    (hf : ∀ b, Reads (f b)) : Reads (x >>= f) := by
  cases x with
  | error e => exact .error (hx e rfl)
  | ok b => exact hf b

theorem Reads.elim {e : Refusal} (h : e.ByReader) (o : Option β) :
    Reads (o.elim (.error e) .ok) := by
  cases o with
  | none => exact .error h
  | some b => exact .ok b

end Reads

theorem reads_document (v : Value α) : Reads (document v) := by
  cases v with
  | string t =>
      rw [document]
      cases (Json.parse t : Except Text (Value α)) with
      | error m => exact .error trivial
      | ok w => exact .ok w
  | _ => exact .ok _

theorem reads_candidateOf (raw : Value α) : Reads (candidateOf raw) := by
  rw [candidateOf]
  cases raw.find? "candidate" with
  | none => exact .error trivial
  | some v =>
      refine .bind (reads_document v) fun w => ?_
      cases w.isObject with
      | false => exact .error trivial
      | true => exact .ok w

theorem reads_instrumentOf (raw : Value α) : Reads (instrumentOf raw) := by
  rw [instrumentOf]
  cases raw.find? "profile" with
  | none => exact .error trivial
  | some v => exact .elim (e := .instrumentNotAnObject) trivial _

theorem reads_settingsOf (raw : Value α) : Reads (settingsOf raw) := by
  refine .bind (.elim (e := .lengthNotPositive) trivial _) fun length => ?_
  refine .bind ?_ fun meter => .ok _
  rw [meterOf]
  split
  · exact .ok _
  · rename_i t _
    exact .elim (e := .invalidMeter t) trivial _

theorem reads_read (t : Text) : Reads (read t : Except Refusal (Request α)) := by
  refine .bind ?_ fun raw => ?_
  · rw [Json.parse]
    split
    · exact .ok _
    · exact .error (Json.beforeNul_message_ne_nil t _)
  · cases raw.isObject with
    | false => exact .error trivial
    | true =>
        exact .bind (reads_candidateOf raw) fun _ => .bind (reads_instrumentOf raw) fun _ =>
          .bind (reads_settingsOf raw) fun _ => .ok _

end Request

/-! ### Status -/

namespace Session

theorem compile_of_read {t : Text} {r : Request α} (h : Request.read t = .ok r) (s : Session α) :
    ∃ p : Part α, r.compile = .ok p ∧
      s.compile t = (⟨some p, p.bundle.render 0, [], true⟩, .ok) := by
  obtain ⟨p, hp⟩ := Request.compile_of_read h
  refine ⟨p, hp, ?_⟩
  rw [compile, h]
  simp only [keep, hp]
  rfl

theorem status_of_read {t : Text} {e : Refusal}
    (h : (Request.read t : Except Refusal (Request α)) = .error e) (s : Session α) :
    (s.compile t).2 = e.status := by
  rw [compile, h]
  rfl

/-- A request is compiled exactly if it is a complete document, and none is refused after it was
read. -/
theorem status_compile (s : Session α) (t : Text) :
    ((s.compile t).2 = .ok ↔ ∃ raw : Value α, Json.parse t = .ok raw ∧ Request.Complete raw) ∧
      (s.compile t).2 ≠ .notCompiled := by
  rw [← Request.exists_read_eq_ok]
  cases hread : (Request.read t : Except Refusal (Request α)) with
  | error e =>
      rw [status_of_read hread]
      exact ⟨⟨fun h => absurd h e.status_ne_ok, fun ⟨_, h⟩ => nomatch h⟩,
        (Request.reads_read t e hread).status_ne⟩
  | ok r =>
      obtain ⟨p, -, hcompile⟩ := compile_of_read hread s
      rw [hcompile]
      exact ⟨⟨fun _ => ⟨r, rfl⟩, fun _ => rfl⟩, fun h => nomatch h⟩

end Session

end MusicPart
