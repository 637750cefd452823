import MusicPart.Proofs.EncodedValues
import MusicPart.Proofs.Readings

/-!
# Handoffs in order

A handoff that is made for the notes is ASCII, except for the role it may repeat. One that came with
a candidate is completed and corrected, which leaves it in order, and its suggestion is cut after so
many bytes, which does if and only if the cut does not go through a character.
-/

namespace MusicPart

open Json (Value)
open Json.Value (Encoded)
open Text.Utf8

variable {α : Type} [Quantity α]

/-! ### Motifs -/

omit [Quantity α] in
theorem encoded_map {β : Type} {f : β → Value α} (h : ∀ x, Encoded (f x)) (xs : List β) :
    Encoded (.array (xs.map f)) := by
  refine .array fun v hv => ?_
  obtain ⟨x, -, rfl⟩ := List.mem_map.mp hv
  exact h x

theorem Motif.encoded_ofNotes (count : Nat) (notes : List (Note α)) :
    Encoded (ofNotes count notes) := by
  have hentry (origin : α) (n : Note α) : Encoded (entry origin n) :=
    Value.encoded_object.mpr (.cons (by decide) (.number _) (.cons (by decide) (.number _)
      (.cons (by decide) (.number _) (.cons (by decide) (.number _) .nil))))
  rw [ofNotes]
  split
  · exact .null
  · refine Value.encoded_object.mpr (.cons (by decide) (encoded_map (hentry _) _)
      (.cons (by decide) (encoded_map (fun _ => .number _) _)
        (.cons (by decide) ?_ (.cons (by decide) (.number _) .nil))))
    exact encoded_map (fun _ => .number _) (_ :: _)

/-! ### Handoffs -/

theorem Text.ascii_ofNat (n : Nat) : Ascii (ofNat n) :=
  .mono (SixPlaces.ofNat_subset n) (by decide)

theorem Pitch.ascii_name (pitch : Int) : Ascii (name pitch) := by
  have hclass : ∀ t ∈ classNames, Ascii t := by decide
  refine .append ?_ ?_
  · rw [className, List.getD_eq_getElem?_getD]
    cases ht : classNames[(classOf (Midi.clampData pitch)).toNat]? with
    | none => exact .nil
    | some t => exact hclass t (List.mem_of_getElem? ht)
  · cases Midi.clampData pitch / 12 - 1 with
    | ofNat n => exact Text.ascii_ofNat n
    | negSucc n => exact .cons (by decide) (Text.ascii_ofNat _)

namespace Handoff

omit [Quantity α] in
theorem ascii_optional (wanted : Bool) {t : Text} (h : Ascii t) :
    ∀ s ∈ optional wanted t, Ascii s := by
  rw [optional]
  split
  · exact List.forall_mem_singleton.mpr h
  · exact List.forall_mem_nil _

theorem mem_of_mem_intersperse {β : Type} {x separator : β} {xs : List β}
    (h : x ∈ xs.intersperse separator) : x = separator ∨ x ∈ xs := by
  induction xs with
  | nil => exact absurd h List.not_mem_nil
  | cons y xs ih =>
      cases xs with
      | nil => exact .inr h
      | cons z xs =>
          rw [List.intersperse_cons_cons] at h
          rcases List.mem_cons.mp h with rfl | h
          · exact .inr List.mem_cons_self
          · rcases List.mem_cons.mp h with rfl | h
            · exact .inl rfl
            · exact (ih h).imp_right (List.mem_cons_of_mem y)

theorem ascii_joinOr (default separator : Text) (hd : Ascii default) (hs : Ascii separator)
    {parts : List Text} (h : ∀ t ∈ parts, Ascii t) : Ascii (joinOr default separator parts) := by
  rw [joinOr]
  split
  · exact hd
  · intro b hb
    obtain ⟨t, ht, hbt⟩ := List.mem_flatten.mp hb
    rcases mem_of_mem_intersperse ht with heq | ht
    · exact hs b (heq ▸ hbt)
    · exact h t ht b hbt

theorem ascii_gaps (feel : Feel) (low high : Int) : ∀ t ∈ gaps feel low high, Ascii t := by
  simp only [gaps, List.forall_mem_append]
  refine ⟨⟨⟨?_, ?_⟩, ?_⟩, ?_⟩
  · exact ascii_optional _ ((Ascii.append (by decide) (Pitch.ascii_name high)).append (by decide))
  · exact ascii_optional _ ((Ascii.append (by decide) (Pitch.ascii_name low)).append (by decide))
  · exact ascii_optional _ (by decide)
  · exact ascii_optional _ (by decide)

theorem ascii_suggestions (register : Register) (feel : Feel) (low high : Int) :
    ∀ t ∈ suggestions register feel low high, Ascii t := by
  simp only [suggestions, List.forall_mem_append]
  refine ⟨⟨⟨?_, ?_⟩, ?_⟩, ?_⟩
  · exact ascii_optional _ (Ascii.append (by decide) (Pitch.ascii_name high))
  · exact ascii_optional _ (Ascii.append (by decide) (Pitch.ascii_name low))
  · exact ascii_optional _ (by decide)
  · exact ascii_optional _ (by decide)

theorem ascii_rangeText (register : Register) (low high : Int) :
    Ascii (rangeText register low high) := by
  have hname : Ascii register.name := by cases register <;> decide
  exact ((((Pitch.ascii_name low).append (by decide)).append (Pitch.ascii_name high)).append
    (by decide)).append hname |>.append (by decide)

theorem isValid_musicalFunction (length : α) {role : Text} (hrole : isValid role = true)
    (notes : List (Note α)) : isValid (musicalFunction length role notes) = true := by
  rw [musicalFunction]
  split
  · decide
  · split
    · decide
    · split
      · decide
      · split
        · decide
        · rw [isValid_lower]
          exact hrole

omit [Quantity α] in
theorem encoded_ofSilence {role : Text} (hrole : isValid role = true) :
    Encoded (ofSilence role : Value α) := by
  have hfunction : isValid (if role.isEmpty then "unknown" else role) = true := by
    split
    · decide
    · exact hrole
  exact Value.encoded_object.mpr (.cons (by decide) (.string hfunction)
    (.cons (by decide) (.string (by decide)) (.cons (by decide) (.string (by decide))
      (.cons (by decide) (.string (by decide)) (.cons (by decide) (.string (by decide))
        (.cons (by decide) (.string (by decide)) .nil))))))

theorem encoded_ofNotes (length : α) {role : Text} (hrole : isValid role = true)
    (notes : List (Note α)) : Encoded (ofNotes length role notes) := by
  have hfeel (feel : Feel) : isValid feel.name = true := by cases feel <;> decide
  have hintensity (intensity : Intensity) : isValid intensity.name = true := by
    cases intensity <;> decide
  have hgaps (feel : Feel) (low high : Int) :=
    ascii_joinOr "limited space available" ", " (by decide) (by decide) (ascii_gaps feel low high)
  have hsuggestions (register : Register) (feel : Feel) (low high : Int) :=
    ascii_joinOr "complement existing part" "; " (by decide) (by decide)
      (ascii_suggestions register feel low high)
  rw [ofNotes]
  split
  · exact encoded_ofSilence hrole
  · exact Value.encoded_object.mpr
      (.cons (by decide) (.string (isValid_musicalFunction length hrole notes))
        (.cons (by decide) (.string (ascii_rangeText _ _ _).isValid)
          (.cons (by decide) (.string (hfeel _)) (.cons (by decide) (.string (hintensity _))
            (.cons (by decide) (.string (hgaps _ _ _).isValid)
              (.cons (by decide) (.string
                (Ascii.mono (List.take_subset _ _) (hsuggestions _ _ _ _)).isValid) .nil))))))

/-- The suggestion of a handoff is not cut inside a character. -/
def CutsWhole (v : Value α) : Prop :=
  ∀ t ∈ (v.find? "suggestion_for_next").bind Value.text?,
    ∀ b ∈ t[maxSuggestion]?, isTail b = false

instance (v : Value α) : Decidable (CutsWhole v) :=
  inferInstanceAs (Decidable (∀ t ∈ _, ∀ b ∈ t[maxSuggestion]?, _))

omit [Quantity α] in
theorem encoded_shorten_iff {v : Value α} (hv : Encoded v) : Encoded (shorten v) ↔ CutsWhole v := by
  rw [shorten, CutsWhole]
  split
  · rename_i t ht
    obtain ⟨w, hw, htext⟩ := Option.bind_eq_some_iff.mp ht
    have hvalid : isValid t = true := (hv.of_find? hw).isValid_of_text? htext
    simp only [ht, Option.mem_some_iff, forall_eq']
    split
    · rw [← isValid_take_iff hvalid]
      constructor
      · intro h
        exact Value.encoded_string.mp
          (h.of_find? (Value.find?_set_self (Value.isObject_of_find? hw) _ _))
      · exact fun h => hv.set (by decide) (.string h)
    · rename_i hlength
      refine iff_of_true hv ?_
      rw [List.getElem?_eq_none (by omega)]
      exact fun b hb => absurd hb (Option.not_mem_none b)
  · rename_i hnone
    rw [hnone]
    exact iff_of_true hv fun t ht => absurd ht (Option.not_mem_none t)

section Completing

variable {source v : Value α} (hsource : Encoded source) (hv : Encoded v)

omit [Quantity α] in
theorem encoded_replace {key flag new : Text} (hv : Encoded v) (hkey : isValid key = true)
    (hflag : isValid flag = true) (hnew : isValid new = true) (wrong : Bool) :
    Encoded (replace wrong key flag new v) := by
  rw [replace]
  split
  · exact (hv.set hkey (.string hnew)).set hflag (.bool true)
  · exact hv

omit [Quantity α] in
theorem find?_replace {key flag other : Text} (hkey : other ≠ key) (hflag : other ≠ flag)
    (wrong : Bool) (new : Text) (v : Value α) :
    (replace wrong key flag new v).find? other = v.find? other := by
  rw [replace]
  split
  · rw [Value.find?_set_of_ne hflag, Value.find?_set_of_ne hkey]
  · rfl

include hsource hv

theorem encoded_complete : Encoded (complete source v) := by
  have hkeys : ∀ key ∈ required, isValid key = true := by decide
  rw [complete]
  generalize required = keys at hkeys
  induction keys generalizing v with
  | nil => exact hv
  | cons key keys ih =>
      obtain ⟨hkey, hkeys⟩ := List.forall_mem_cons.mp hkeys
      refine ih ?_ hkeys
      rw [fill]
      split
      · exact hv
      · refine hv.set hkey ?_
        cases hfound : source.find? key with
        | none => exact .string (by decide)
        | some w => exact hsource.of_find? hfound

omit hsource hv

theorem find?_complete {key : Text} (h : key ∉ required) (source v : Value α) :
    (complete source v).find? key = v.find? key := by
  rw [complete]
  generalize required = keys at h
  induction keys generalizing v with
  | nil => rfl
  | cons other keys ih =>
      rw [List.mem_cons, not_or] at h
      rw [List.foldl_cons, ih _ h.2, fill]
      split
      · rfl
      · rw [Value.find?_set_of_ne h.1]

end Completing

theorem encoded_correct (length : α) (notes : List (Note α)) {v : Value α} (hv : Encoded v) :
    Encoded (correct length notes v) := by
  have hregister (register : Register) : isValid register.name = true := by
    cases register <;> decide
  have hfeel (feel : Feel) : isValid feel.name = true := by cases feel <;> decide
  rw [correct]
  split
  · exact hv
  · exact encoded_replace (encoded_replace hv (by decide) (by decide) (hregister _) _) (by decide)
      (by decide) (hfeel _) _

theorem find?_suggestion_correct (length : α) (notes : List (Note α)) (v : Value α) :
    (correct length notes v).find? "suggestion_for_next" = v.find? "suggestion_for_next" := by
  rw [correct]
  split
  · rfl
  · exact (find?_replace (by decide) (by decide) _ _ _).trans
      (find?_replace (by decide) (by decide) _ _ _)

/-- Completing and correcting keep a handoff in order, and leave its suggestion. -/
theorem encoded_validate_iff (length : α) (notes : List (Note α)) {v : Value α} (hv : Encoded v) :
    Encoded (validate length notes v) ↔ CutsWhole v := by
  have hsource : Encoded (ofNotes length [] notes) := encoded_ofNotes length rfl notes
  rw [validate]
  split
  · rename_i hempty
    refine iff_of_true hsource ?_
    rw [CutsWhole, Value.find?, List.isEmpty_iff.mp hempty]
    exact fun t ht => absurd ht (Option.not_mem_none t)
  · have hcorrect := encoded_correct length notes (encoded_complete hsource hv)
    rw [encoded_shorten_iff hcorrect, CutsWhole, CutsWhole, find?_suggestion_correct,
      find?_complete (by decide)]

end Handoff

end MusicPart
