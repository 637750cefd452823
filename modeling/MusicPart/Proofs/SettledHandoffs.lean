import Mathlib
import MusicPart.Proofs.EncodedHandoffs

/-!
# Settled handoffs

Validating gives a handoff that says all that is required, contradicts nothing that can be heard and
suggests nothing too long, whatever there was before. Such a handoff is settled: what would be
filled is told, what would be corrected is right, and validating leaves it as it is.
-/

namespace MusicPart

open Json (Value)

theorem Register.name_ne_nil (r : Register) : r.name ≠ [] := by cases r <;> decide

theorem Feel.name_ne_nil (f : Feel) : f.name ≠ [] := by cases f <;> decide

variable {α : Type}

theorem Json.Value.isObject_of_members_ne_nil {v : Value α} (h : v.members ≠ []) :
    v.isObject = true := by
  cases v with
  | object ms => rfl
  | _ => exact absurd rfl h

variable [Quantity α]

namespace Handoff

open Json.Value (find?_set_self find?_set_of_ne isObject_set)

/-! ### What a made handoff says -/

theorem joinOr_ne_nil {default : Text} (hd : default ≠ []) (separator : Text) {parts : List Text}
    (h : ∀ t ∈ parts, t ≠ []) : joinOr default separator parts ≠ [] := by
  rw [joinOr]
  cases parts with
  | nil => exact hd
  | cons t parts =>
      have ht : t ≠ [] := h t List.mem_cons_self
      cases parts with
      | nil => simpa [join] using ht
      | cons s parts => simp [join, ht]

theorem gaps_ne_nil (feel : Feel) (low high : Int) : ∀ t ∈ gaps feel low high, t ≠ [] := by
  have hoptional (wanted : Bool) {t : Text} (ht : t ≠ []) : ∀ s ∈ optional wanted t, s ≠ [] := by
    rw [optional]
    split
    · exact List.forall_mem_singleton.mpr ht
    · exact List.forall_mem_nil _
  simp only [gaps, List.forall_mem_append]
  refine ⟨⟨⟨?_, ?_⟩, ?_⟩, ?_⟩
  · exact hoptional _ (List.append_ne_nil_of_right_ne_nil _ (by decide))
  · exact hoptional _ (List.append_ne_nil_of_right_ne_nil _ (by decide))
  · exact hoptional _ (by decide)
  · exact hoptional _ (by decide)

theorem musicalFunction_ne_nil (length : α) (notes : List (Note α)) :
    musicalFunction length [] notes ≠ [] := by
  rw [musicalFunction]
  split
  · decide
  · split
    · decide
    · split
      · decide
      · decide

theorem tells_of_find? {v : Value α} {key t : Text} (h : v.find? key = some (string t))
    (ht : t ≠ []) : tells v key = true := by
  rw [tells, h]
  simpa [string, Value.truthy] using ht

theorem tells_ofNotes (length : α) (notes : List (Note α)) {key : Text} (h : key ∈ required) :
    tells (ofNotes length [] notes) key = true := by
  have hintensity (intensity : Intensity) : intensity.name ≠ [] := by cases intensity <;> decide
  have hrange (register : Register) (low high : Int) : rangeText register low high ≠ [] :=
    List.append_ne_nil_of_right_ne_nil _ (by decide)
  have hgaps (feel : Feel) (low high : Int) :
      joinOr "limited space available" ", " (gaps feel low high) ≠ [] :=
    joinOr_ne_nil (by decide) _ (gaps_ne_nil feel low high)
  simp only [required, List.mem_cons, List.not_mem_nil, or_false] at h
  rw [ofNotes]
  split
  · rcases h with rfl | rfl | rfl | rfl | rfl
    · exact tells_of_find? rfl (by decide)
    · exact tells_of_find? rfl (by decide)
    · exact tells_of_find? rfl (by decide)
    · exact tells_of_find? rfl (by decide)
    · exact tells_of_find? rfl (by decide)
  · rcases h with rfl | rfl | rfl | rfl | rfl
    · exact tells_of_find? rfl (musicalFunction_ne_nil length notes)
    · exact tells_of_find? rfl (hrange _ _ _)
    · exact tells_of_find? rfl (Feel.name_ne_nil _)
    · exact tells_of_find? rfl (hintensity _)
    · exact tells_of_find? rfl (hgaps _ _ _)

/-! ### Filling -/

section Filling

variable {source v : Value α} {key : Text}

theorem isObject_fill (h : v.isObject = true) (source : Value α) (key : Text) :
    (fill source v key).isObject = true := by
  rw [fill]
  split
  · exact h
  · exact isObject_set h _ _

theorem find?_fill_of_ne {other : Text} (h : other ≠ key) (source v : Value α) :
    (fill source v key).find? other = v.find? other := by
  rw [fill]
  split
  · rfl
  · exact find?_set_of_ne h v _

theorem find?_fill_self (h : v.isObject = true) (source : Value α) (key : Text) :
    (fill source v key).find? key =
      if tells v key then v.find? key else some ((source.find? key).getD (string "unknown")) := by
  rw [fill]
  split
  · rfl
  · exact find?_set_self h key _

theorem isObject_complete (h : v.isObject = true) (source : Value α) :
    (complete source v).isObject = true := by
  rw [complete]
  induction required generalizing v with
  | nil => exact h
  | cons key keys ih => exact ih (isObject_fill h source key)

/-- Each required member is filled once, so it depends on what stood there at first. -/
theorem find?_complete_of_mem (h : v.isObject = true) (source : Value α) (hkey : key ∈ required) :
    (complete source v).find? key =
      if tells v key then v.find? key else some ((source.find? key).getD (string "unknown")) := by
  have hnodup : required.Nodup := by decide
  have hother (keys : List Text) (hkeys : key ∉ keys) (w : Value α) :
      (keys.foldl (fill source) w).find? key = w.find? key := by
    induction keys generalizing w with
    | nil => rfl
    | cons other keys ih =>
        rw [List.mem_cons, not_or] at hkeys
        rw [List.foldl_cons, ih hkeys.2, find?_fill_of_ne hkeys.1]
  rw [complete]
  generalize required = keys at hkey hnodup
  induction keys generalizing v with
  | nil => exact absurd hkey List.not_mem_nil
  | cons other keys ih =>
      obtain ⟨hnew, hnodup⟩ := List.nodup_cons.mp hnodup
      rw [List.foldl_cons]
      by_cases heq : key = other
      · subst heq
        rw [hother keys hnew, find?_fill_self h]
      · have hmem : key ∈ keys := (List.mem_cons.mp hkey).resolve_left heq
        rw [ih (isObject_fill h source other) hmem hnodup, tells, tells, find?_fill_of_ne heq]

theorem tells_complete (h : v.isObject = true) (hsource : tells source key = true)
    (hkey : key ∈ required) : tells (complete source v) key = true := by
  rw [tells, find?_complete_of_mem h source hkey]
  split
  · assumption
  · obtain ⟨w, hw, htruthy⟩ := (Option.any_eq_true ..).mp hsource
    rw [hw]
    exact htruthy

theorem complete_of_tells (h : ∀ key ∈ required, tells v key = true) (source : Value α) :
    complete source v = v := by
  rw [complete]
  generalize required = keys at h
  induction keys with
  | nil => rfl
  | cons key keys ih =>
      obtain ⟨hkey, hkeys⟩ := List.forall_mem_cons.mp h
      rw [List.foldl_cons, fill, if_pos hkey]
      exact ih hkeys

end Filling

/-! ### Correcting -/

theorem contradictsRange_lower_name (r : Register) :
    contradictsRange r (Text.lower r.name) = false := by
  cases r <;> decide

theorem contradictsFeel_lower_name (f : Feel) :
    contradictsFeel f (Text.lower f.name) = false := by
  cases f <;> decide

/-- A range that is written with its lowest and highest note ends in a bracket, unlike a name. -/
theorem contradictsRange_rangeText (r r' : Register) (low high : Int) :
    contradictsRange r (Text.lower (rangeText r' low high)) = false := by
  have hbracket : Text.byte ')' ∈ Text.lower (rangeText r' low high) :=
    List.mem_map.mpr ⟨Text.byte ')', List.mem_append_right _ (by decide), by decide⟩
  have hone {names : List Text} (h : ∀ t ∈ names, Text.byte ')' ∉ t) :
      isOneOf (Text.lower (rangeText r' low high)) names = false := by
    rw [isOneOf, ← Bool.not_eq_true, List.contains_iff_mem]
    exact fun hmem => h _ hmem hbracket
  rw [contradictsRange, hone (by decide), hone (by decide), Bool.and_false, Bool.and_false]
  rfl

omit [Quantity α] in
theorem claim_of_find? {v w : Value α} {key : Text} (h : v.find? key = w.find? key) :
    claim v key = claim w key := by
  rw [claim, claim, h]

omit [Quantity α] in
theorem claim_string {v : Value α} {key t : Text} (h : v.find? key = some (string t)) :
    claim v key = Text.lower t := by
  rw [claim, h]
  rfl

/-- A handoff that says all that is required, does not contradict the notes and suggests nothing
too long. -/
structure Settled (length : α) (notes : List (Note α)) (v : Value α) : Prop where
  members : v.members ≠ []
  tells : ∀ key ∈ required, tells v key = true
  range : contradictsRange (Character.register notes) (claim v "occupied_range") = false
  feel : contradictsFeel (Character.feel length notes) (claim v "rhythmic_feel") = false
  suggestion : ∀ t ∈ (v.find? "suggestion_for_next").bind Value.text?, t.length ≤ maxSuggestion

section Settled

variable {length : α} {notes : List (Note α)} {v : Value α}

/-- Without notes the register and the feel are unknown, and nothing contradicts them. -/
theorem correct_eq (length : α) (notes : List (Note α)) (v : Value α) : correct length notes v =
    replace (contradictsFeel (Character.feel length notes) (claim v "rhythmic_feel"))
      "rhythmic_feel" "_rhythmic_corrected" (Character.feel length notes).name
      (replace (contradictsRange (Character.register notes) (claim v "occupied_range"))
        "occupied_range" "_range_corrected" (Character.register notes).name v) := by
  rw [correct]
  split
  · rename_i hempty
    rw [List.isEmpty_iff.mp hempty]
    rfl
  · rfl

omit [Quantity α] in
theorem shorten_of_short
    (h : ∀ t ∈ (v.find? "suggestion_for_next").bind Value.text?, t.length ≤ maxSuggestion) :
    shorten v = v := by
  rw [shorten]
  split
  · rename_i t ht
    exact if_neg (not_lt.mpr (h t ht))
  · rfl

theorem Settled.validate_eq (h : Settled length notes v) : validate length notes v = v := by
  have hmembers : v.members.isEmpty = false := by simpa using h.members
  rw [validate, hmembers, if_neg Bool.false_ne_true, complete_of_tells h.tells,
    correct_eq, h.range, h.feel]
  exact shorten_of_short h.suggestion

theorem settled_ofNotes (length : α) (notes : List (Note α)) :
    Settled length notes (ofNotes length [] notes) := by
  have htells : ∀ key ∈ required, Handoff.tells (ofNotes length [] notes) key = true :=
    fun _ => tells_ofNotes length notes
  by_cases hempty : notes = []
  · subst hempty
    refine ⟨List.cons_ne_nil _ _, htells, rfl, rfl, ?_⟩
    rintro t ⟨⟩
    decide
  · have hobject : ofNotes length [] notes = .object _ := if_neg (by simpa using hempty)
    refine ⟨?_, htells, ?_, ?_, ?_⟩
    · rw [hobject]
      exact List.cons_ne_nil _ _
    · rw [claim_string (t := rangeText _ _ _) (by rw [hobject]; rfl)]
      exact contradictsRange_rangeText _ _ _ _
    · rw [claim_string (t := Feel.name _) (by rw [hobject]; rfl)]
      exact contradictsFeel_lower_name _
    · rw [hobject]
      rintro t ⟨⟩
      exact List.length_take_le _ _

/-! ### What validating gives -/

omit [Quantity α] in
theorem isObject_replace (h : v.isObject = true) (wrong : Bool) (key flag new : Text) :
    (replace wrong key flag new v).isObject = true := by
  rw [replace]
  split
  · exact isObject_set (isObject_set h _ _) _ _
  · exact h

omit [Quantity α] in
/-- A member that may be replaced holds the new text, or what it held before. -/
theorem find?_replace_self {key flag : Text} (hne : key ≠ flag) (h : v.isObject = true)
    (wrong : Bool) (new : Text) : (replace wrong key flag new v).find? key =
      if wrong then some (string new) else v.find? key := by
  rw [replace]
  split
  · rw [find?_set_of_ne hne, find?_set_self h]
  · rfl

theorem members_ne_nil_of_tells {key : Text} (h : Handoff.tells v key = true) :
    v.members ≠ [] := by
  intro hnil
  rw [Handoff.tells, Value.find?, hnil] at h
  cases h

theorem tells_set {key other : Text} {new : Value α} (hv : v.isObject = true)
    (hnew : new.truthy = true) (h : Handoff.tells v other = true) :
    Handoff.tells (v.set key new) other = true := by
  by_cases heq : other = key
  · subst heq
    rw [Handoff.tells, find?_set_self hv]
    exact hnew
  · rw [Handoff.tells, find?_set_of_ne heq]
    exact h

theorem truthy_string {t : Text} (h : t ≠ []) : (string t : Value α).truthy = true := by
  simpa [string, Value.truthy] using h

theorem tells_replace {key flag new other : Text} (hv : v.isObject = true) (hnew : new ≠ [])
    (wrong : Bool) (h : Handoff.tells v other = true) :
    Handoff.tells (replace wrong key flag new v) other = true := by
  rw [replace]
  split
  · exact tells_set (isObject_set hv _ _) rfl (tells_set hv (truthy_string hnew) h)
  · exact h

theorem take_ne_nil {t : Text} (h : maxSuggestion < t.length) : t.take maxSuggestion ≠ [] := by
  rw [← List.length_pos_iff_ne_nil, List.length_take]
  exact lt_min (by decide) (by omega)

theorem tells_shorten {key : Text} (hv : v.isObject = true) (h : Handoff.tells v key = true) :
    Handoff.tells (shorten v) key = true := by
  rw [shorten]
  split
  · split
    · rename_i hlong
      exact tells_set hv (truthy_string (take_ne_nil hlong)) h
    · exact h
  · exact h

omit [Quantity α] in
theorem find?_shorten_of_ne {key : Text} (h : key ≠ "suggestion_for_next") (v : Value α) :
    (shorten v).find? key = v.find? key := by
  rw [shorten]
  split
  · split
    · exact find?_set_of_ne h v _
    · rfl
  · rfl

omit [Quantity α] in
theorem length_le_of_shorten (v : Value α) :
    ∀ t ∈ ((shorten v).find? "suggestion_for_next").bind Value.text?, t.length ≤ maxSuggestion := by
  rw [shorten]
  split
  · rename_i s hs
    obtain ⟨w, hw, -⟩ := Option.bind_eq_some_iff.mp hs
    split
    · rw [find?_set_self (Value.isObject_of_find? hw)]
      rintro t ⟨⟩
      exact List.length_take_le _ _
    · rename_i hshort
      rw [hs]
      rintro t ⟨⟩
      exact not_lt.mp hshort
  · rename_i hnone
    rw [hnone]
    exact fun t ht => absurd ht (Option.not_mem_none t)

theorem find?_range_correct (h : v.isObject = true) (length : α) (notes : List (Note α)) :
    (correct length notes v).find? "occupied_range" =
      if contradictsRange (Character.register notes) (claim v "occupied_range") then
        some (string (Character.register notes).name)
      else v.find? "occupied_range" := by
  rw [correct_eq, find?_replace (by decide) (by decide), find?_replace_self (by decide) h]

theorem find?_feel_correct (h : v.isObject = true) (length : α) (notes : List (Note α)) :
    (correct length notes v).find? "rhythmic_feel" =
      if contradictsFeel (Character.feel length notes) (claim v "rhythmic_feel") then
        some (string (Character.feel length notes).name)
      else v.find? "rhythmic_feel" := by
  rw [correct_eq, find?_replace_self (by decide) (isObject_replace h _ _ _ _),
    find?_replace (by decide) (by decide)]

/-- Whatever told all that is required is settled by correcting and shortening it. -/
theorem settled_shorten_correct (hv : v.isObject = true)
    (htells : ∀ key ∈ required, Handoff.tells v key = true) (length : α) (notes : List (Note α)) :
    Settled length notes (shorten (correct length notes v)) := by
  have hcorrect : (correct length notes v).isObject = true := by
    rw [correct_eq]
    exact isObject_replace (isObject_replace hv _ _ _ _) _ _ _ _
  have hall : ∀ key ∈ required, Handoff.tells (shorten (correct length notes v)) key = true := by
    intro key hkey
    refine tells_shorten hcorrect ?_
    rw [correct_eq]
    exact tells_replace (isObject_replace hv _ _ _ _) (Feel.name_ne_nil _) _
      (tells_replace hv (Register.name_ne_nil _) _ (htells key hkey))
  refine ⟨members_ne_nil_of_tells (hall "occupied_range" (by decide)), hall, ?_, ?_,
    length_le_of_shorten _⟩
  · have hfind := (find?_shorten_of_ne (by decide) _).trans (find?_range_correct hv length notes)
    by_cases hwrong : contradictsRange (Character.register notes) (claim v "occupied_range") = true
    · rw [if_pos hwrong] at hfind
      rw [claim_string hfind]
      exact contradictsRange_lower_name _
    · rw [if_neg hwrong] at hfind
      rw [claim_of_find? hfind]
      exact Bool.eq_false_of_not_eq_true hwrong
  · have hfind := (find?_shorten_of_ne (by decide) _).trans (find?_feel_correct hv length notes)
    by_cases hwrong : contradictsFeel (Character.feel length notes) (claim v "rhythmic_feel") = true
    · rw [if_pos hwrong] at hfind
      rw [claim_string hfind]
      exact contradictsFeel_lower_name _
    · rw [if_neg hwrong] at hfind
      rw [claim_of_find? hfind]
      exact Bool.eq_false_of_not_eq_true hwrong

theorem settled_validate (length : α) (notes : List (Note α)) (v : Value α) :
    Settled length notes (validate length notes v) := by
  rw [validate]
  split
  · exact settled_ofNotes length notes
  · rename_i hmembers
    have hobject := Value.isObject_of_members_ne_nil (v := v) (by simpa using hmembers)
    have hcomplete : (complete (ofNotes length [] notes) v).isObject = true :=
      isObject_complete hobject _
    exact settled_shorten_correct hcomplete
      (fun key hkey => tells_complete hobject (tells_ofNotes length notes hkey) hkey) length notes

end Settled

end Handoff

end MusicPart
