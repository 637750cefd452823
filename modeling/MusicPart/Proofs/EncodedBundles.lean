import MusicPart.Proofs.EncodedHandoffs
import MusicPart.Proofs.EncodedTags
import MusicPart.Proofs.Sessions

/-!
# Bundles in order

A bundle holds what the stages and the writer made, which is in order, and what stood in a request.
If the request is sound, which means in order and with paired surrogates, also in the document that
its candidate may come as, then it is for the suggestion of the handoff to keep the bundle in order.
-/

namespace MusicPart

open Json (Value bind_eq_ok)
open Json.Literal (Sound literals paired)
open Json.Value (Encoded EncodedMembers)
open Text.Utf8

variable {α : Type} [Quantity α]

/-! ### Parts -/

namespace Part

/-- All that a part tells besides its handoff is in order. -/
structure Encoded (p : Part α) : Prop where
  notes : ∀ n ∈ p.notes, isValid n.tag = true
  articulation : ∀ t ∈ p.articulation, isValid t = true
  timeline : ∀ c ∈ p.timeline, isValid c.name = true
  generationType : p.generationType.Encoded
  generationStyle : p.generationStyle.Encoded
  motif : p.motif.Encoded

omit [Quantity α] in
theorem encoded_listed {β : Type} {f : β → Value α} {key : Text} (hkey : isValid key = true)
    {xs : List β} (h : ∀ x ∈ xs, (f x).Encoded) : EncodedMembers (listed key f xs) := by
  rw [listed]
  split
  · exact .nil
  · refine .cons hkey (.array fun v hv => ?_) .nil
    obtain ⟨x, hx, rfl⟩ := List.mem_map.mp hv
    exact h x hx

omit [Quantity α] in
theorem encoded_unlessNull_iff {key : Text} (hkey : isValid key = true) (v : Value α) :
    EncodedMembers (unlessNull key v) ↔ v.Encoded := by
  rw [unlessNull]
  split
  · rename_i hnull
    refine iff_of_true .nil ?_
    cases v with
    | null => exact .null
    | _ => cases hnull
  · rw [EncodedMembers, List.forall_mem_singleton]
    exact and_iff_right hkey

/-! Events have numbers under their keys, and some of them a name. -/

theorem encoded_noteValue {n : Note α} (h : isValid n.tag = true) : (noteValue n).Encoded := by
  have htag : EncodedMembers (tagMembers n.tag : List (Text × Value α)) := by
    rw [tagMembers]
    split
    · exact .nil
    · exact .cons (by decide) (.string h) .nil
  exact Value.encoded_object.mpr (.append (.cons (by decide) (.number _)
    (.cons (by decide) (.number _) (.cons (by decide) (.number _) (.cons (by decide) (.number _)
      (.cons (by decide) (.number _) .nil))))) htag)

theorem encoded_controlValue (c : ControlChange α) : (controlValue c).Encoded :=
  Value.encoded_object.mpr (.cons (by decide) (.number _) (.cons (by decide) (.number _)
    (.cons (by decide) (.number _) (.cons (by decide) (.number _) .nil))))

theorem encoded_keyswitchValue (k : Keyswitch α) : (keyswitchValue k).Encoded :=
  Value.encoded_object.mpr (.cons (by decide) (.number _) (.cons (by decide) (.number _)
    (.cons (by decide) (.number _) (.cons (by decide) (.number _)
      (.cons (by decide) (.number _) .nil)))))

theorem encoded_programValue (c : ProgramChange α) : (programValue c).Encoded :=
  Value.encoded_object.mpr (.cons (by decide) (.number _) (.cons (by decide) (.number _)
    (.cons (by decide) (.number _) .nil)))

omit [Quantity α] in
theorem encoded_changeValue {c : ArticulationChange α} (h : isValid c.name = true) :
    (changeValue c).Encoded :=
  Value.encoded_object.mpr (.cons (by decide) (.number _) (.cons (by decide) (.string h) .nil))

theorem encoded_markerValue (m : TempoMarker α) : (markerValue m).Encoded := by
  have htempo : EncodedMembers (tempoMembers m.bpm) := by
    cases m.bpm with
    | none => exact .nil
    | some bpm => exact .cons (by decide) (.number _) .nil
  have hmeter : EncodedMembers (meterMembers m.meter : List (Text × Value α)) := by
    cases m.meter with
    | none => exact .nil
    | some meter => exact .cons (by decide) (.number _) (.cons (by decide) (.number _) .nil)
  exact Value.encoded_object.mpr (.cons (by decide) (.number _)
    (.append (.append htempo hmeter) (.cons (by decide) (.bool _) .nil)))

theorem encoded_eventMembers {p : Part α} (h : p.Encoded) : EncodedMembers (eventMembers p) := by
  have hnotes : (array noteValue p.notes).Encoded := by
    refine .array fun v hv => ?_
    obtain ⟨n, hn, rfl⟩ := List.mem_map.mp hv
    exact encoded_noteValue (h.notes n hn)
  have harticulation : (articulationValue p.articulation : Value α).Encoded := by
    have hlabel := h.articulation
    cases hp : p.articulation with
    | none => exact .null
    | some t => exact .string (hlabel t hp)
  exact .cons (by decide) hnotes (.cons (by decide) (encoded_map encoded_controlValue _)
    (.cons (by decide) (encoded_map encoded_keyswitchValue _)
      (.cons (by decide) (encoded_map encoded_programValue _)
        (.cons (by decide) harticulation .nil))))

theorem encoded_bundle_iff {p : Part α} (h : p.Encoded) : p.bundle.Encoded ↔ p.handoff.Encoded := by
  have hchanges : EncodedMembers (listed "articulation_changes" changeValue p.timeline) :=
    encoded_listed (by decide) fun c hc => encoded_changeValue (h.timeline c hc)
  have hmarkers : EncodedMembers (listed "tempo_markers" markerValue p.markers) :=
    encoded_listed (by decide) fun m _ => encoded_markerValue m
  have hgeneration : EncodedMembers [(Text.ofString "generation_type", p.generationType),
      (Text.ofString "generation_style", p.generationStyle)] :=
    .cons (by decide) h.generationType (.cons (by decide) h.generationStyle .nil)
  have hmotif : EncodedMembers (unlessNull "extracted_motif" p.motif) :=
    (encoded_unlessNull_iff (by decide) p.motif).mpr h.motif
  have hrest := (((encoded_eventMembers h).append hchanges).append hmarkers).append hgeneration
  have hhandoff : EncodedMembers (unlessNull "handoff" p.handoff) ↔ p.handoff.Encoded :=
    encoded_unlessNull_iff (by decide) p.handoff
  rw [bundle, Value.encoded_object, ← hhandoff]
  constructor
  · intro hbundle
    exact fun m hm => hbundle m (List.mem_append_left _ (List.mem_append_right _ hm))
  · exact fun hp => (hrest.append hp).append hmotif

omit [Quantity α] in
theorem encoded_member {candidate : Value α} (h : candidate.Encoded) (key : Text) :
    (member candidate key).Encoded := by
  rw [member]
  cases hfound : candidate.find? key with
  | none => exact .null
  | some v => exact h.of_find? hfound

theorem ofScore_encoded {candidate : Value α} (h : candidate.Encoded) (i : Instrument α)
    (s : Settings α) : (ofScore i s candidate (Score.ofCandidate i s candidate)).Encoded where
  notes := by
    intro n hn
    have hn := (Note.sort_perm _).mem_iff.mp hn
    exact (Score.delivered_encoded h).notes _ (List.mem_map_of_mem hn)
  articulation := (Score.delivered_encoded h).label
  timeline := Score.timeline_isValid_name (i := i) (s := s) h
  generationType := encoded_member h _
  generationStyle := encoded_member h _
  motif := by
    change Value.Encoded (if s.wantsMotif then _ else _)
    split
    · exact Motif.encoded_ofNotes _ _
    · exact .null

theorem encoded_handoffOf_iff {candidate : Value α} (h : candidate.Encoded) {s : Settings α}
    (hrole : isValid s.role = true) (notes : List (Note α)) :
    (handoffOf s candidate notes).Encoded ↔
      ∀ v ∈ candidate.present? "handoff", Handoff.CutsWhole v := by
  rw [handoffOf]
  cases hpresent : candidate.present? "handoff" with
  | none =>
      refine iff_of_true ?_ fun v hv => absurd hv (Option.not_mem_none v)
      dsimp only
      split
      · exact Handoff.encoded_ofNotes _ hrole _
      · exact .null
  | some v =>
      dsimp only
      simp only [Handoff.encoded_validate_iff _ _ (h.of_present? hpresent), Option.mem_some_iff,
        forall_eq']

/-- A part of a candidate in order is handed out in order, at any indent, if and only if the
suggestion that came with the candidate is not cut inside a character. -/
theorem compile_isValid_iff {candidate : Value α} (h : candidate.Encoded) {i : Instrument α}
    {s : Settings α} (hrole : isValid s.role = true) {p : Part α}
    (hp : compile i s candidate = .ok p) (indent : Int) :
    isValid (p.bundle.render indent) = true ↔
      ∀ v ∈ candidate.present? "handoff", Handoff.CutsWhole v := by
  obtain rfl := compile_eq_ofScore hp
  rw [Value.isValid_render, encoded_bundle_iff (ofScore_encoded h i s)]
  exact encoded_handoffOf_iff h hrole _

end Part

/-! ### Requests -/

namespace Request

/-- The document that the candidate of a text comes as, if it is a text again. -/
def inner? (α : Type) [Quantity α] (t : Text) : Option Text :=
  ((Json.parse t : Except Text (Value α)).toOption.bind (·.find? "candidate")).bind Value.text?

/-- A text in order whose literals have paired surrogates, also those of the document inside. -/
structure IsSound (α : Type) [Quantity α] (t : Text) : Prop where
  text : Sound t
  inner : ∀ s ∈ inner? α t, ∀ ps ∈ literals s, paired ps = true

variable {t : Text}

theorem inner?_eq_some {raw : Value α} (hraw : Json.parse t = .ok raw) {s : Text}
    (hs : raw.find? "candidate" = some (.string s)) : inner? α t = some s := by
  rw [inner?, hraw]
  exact (congrArg (Option.bind · Value.text?) hs).trans rfl

theorem IsSound.encoded_candidate (ht : IsSound α t) {r : Request α} (hr : read t = .ok r) :
    r.candidate.Encoded := by
  obtain ⟨raw, hraw, -, hcandidate, -⟩ := read_eq_ok.mp hr
  obtain ⟨v, ms, hv, hstands, heq⟩ := candidateOf_eq_ok.mp hcandidate
  have hencoded : v.Encoded := (Json.encoded_parse ht.text hraw).of_find? hv
  rw [heq]
  cases hstands with
  | object => exact hencoded
  | text hs =>
      have hsound : Sound _ :=
        ⟨Value.encoded_string.mp hencoded, ht.inner _ (inner?_eq_some hraw hv)⟩
      exact Json.encoded_parse hsound hs

theorem role_of_settingsOf {raw : Value α} {s : Settings α} (h : settingsOf raw = .ok s) :
    s.role = ((raw.find? "role").bind Value.text?).getD [] := by
  obtain ⟨_, -, h⟩ := bind_eq_ok.mp h
  obtain ⟨_, -, h⟩ := bind_eq_ok.mp h
  cases h
  rfl

theorem IsSound.isValid_role (ht : IsSound α t) {r : Request α} (hr : read t = .ok r) :
    isValid r.settings.role = true := by
  obtain ⟨raw, hraw, -, -, -, hsettings⟩ := read_eq_ok.mp hr
  rw [role_of_settingsOf hsettings]
  exact Encoded.isValid_textOr fun _ hv => (Json.encoded_parse ht.text hraw).of_find? hv

end Request

/-- Whatever a session holds, the bundle of a sound request that succeeds is in order if and only if
the suggestion that came with its candidate is not cut inside a character. -/
theorem Session.isValid_bundle_iff (session : Session α) {t : Text} (ht : Request.IsSound α t)
    (hok : (session.compile t).2 = .ok) :
    ∃ r : Request α, Request.read t = .ok r ∧
      ∃ b, (session.compile t).1.bundle? = some b ∧ (isValid b = true ↔
        ∀ v ∈ r.candidate.present? "handoff", Handoff.CutsWhole v) := by
  cases hread : (Request.read t : Except Refusal (Request α)) with
  | error e => exact absurd (status_of_read hread session ▸ hok) e.status_ne_ok
  | ok r =>
      obtain ⟨p, hp, hcompile⟩ := compile_of_read hread session
      refine ⟨r, rfl, p.bundle.render 0, by rw [hcompile]; rfl, ?_⟩
      exact Part.compile_isValid_iff (ht.encoded_candidate hread) (ht.isValid_role hread)
        (mapError_eq_ok.mp hp) 0

/-- A request with letters beyond ASCII, written out as well as escaped, in its role, in its
articulation and in the handoff of a candidate that comes as a text. -/
def accentedRequest : Text :=
  "\x7b\"role\":\"É\",\"profile\":\x7b\x7d,\"length_q\":4,\"candidate\":\"\x7b" ++
    "\\\"articulation\\\":\\\"détaché\\\",\\\"handoff\\\":\x7b" ++
    "\\\"suggestion_for_next\\\":\\\"\\\\ud83c\\\\udfb5 \\u266a\\\"\x7d\x7d\"\x7d"

theorem accentedRequest_isValid_bundle : Request.IsSound Rat accentedRequest ∧
    (({} : Session Rat).compile accentedRequest).2 = .ok ∧
      ∃ b, (({} : Session Rat).compile accentedRequest).1.bundle? = some b ∧ isValid b = true := by
  have hsound : Request.IsSound Rat accentedRequest := ⟨by decide +kernel, by decide +kernel⟩
  have hok : (({} : Session Rat).compile accentedRequest).2 = .ok := by decide +kernel
  obtain ⟨r, hr, b, hb, hvalid⟩ := Session.isValid_bundle_iff {} hsound hok
  have hwhole : ∀ r ∈ (Request.read accentedRequest : Except Refusal (Request Rat)).toOption,
      ∀ v ∈ r.candidate.present? "handoff", Handoff.CutsWhole v := by decide +kernel
  exact ⟨hsound, hok, b, hb, hvalid.mpr (hwhole r (by rw [hr]; rfl))⟩

end MusicPart
