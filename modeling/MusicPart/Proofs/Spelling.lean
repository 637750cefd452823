import MusicPart.Proofs.LetterCase
import MusicPart.Proofs.RawNotes
import MusicPart.Proofs.Readings

/-!
# Spelling of names

Two documents can differ in the case of letters in the names of articulations and drums, and in
nothing else. All that is read of one is then read of the other, up to the case of tags and names.
So the parts that they are compiled to are equal up to the case of letters in articulations.
-/

namespace MusicPart

open Json (Value)

variable {α : Type}

/-! ### Documents of two spellings -/

namespace Json.Value

/-- Equal values, or two texts that differ in the case of letters only. -/
inductive Respelled : Value α → Value α → Prop
  | refl (v : Value α) : Respelled v v
  | text {s t : Text} (h : Text.lower s = Text.lower t) : Respelled (.string s) (.string t)

/-- Equal values, or two arrays whose elements are related in turn. -/
inductive Elementwise (r : Value α → Value α → Prop) : Value α → Value α → Prop
  | refl (v : Value α) : Elementwise r v v
  | array {vs ws : List (Value α)} (h : List.Forall₂ r vs ws) : Elementwise r (.array vs) (.array ws)

/-- Equal values, or two objects with the same keys in turn, whose members are related as their key
demands. -/
inductive Memberwise (r : Text → Value α → Value α → Prop) : Value α → Value α → Prop
  | refl (v : Value α) : Memberwise r v v
  | object {ms ns : List (Text × Value α)}
      (h : List.Forall₂ (fun m n => m.1 = n.1 ∧ r m.1 m.2 n.2) ms ns) :
      Memberwise r (.object ms) (.object ns)

/-- Under some keys values are related, and under all others they are equal. -/
def under (keys : List Text) (r : Value α → Value α → Prop) (key : Text) :
    Value α → Value α → Prop := if key ∈ keys then r else Eq

def NoteRespelled : Value α → Value α → Prop :=
  Memberwise (under ["articulation", "art"] Respelled)

def PatternRespelled : Value α → Value α → Prop :=
  Memberwise (under ["notes"] (Elementwise NoteRespelled))

def DrumRespelled : Value α → Value α → Prop := Memberwise (under ["drum", "name"] Respelled)

def ChangeRespelled : Value α → Value α → Prop :=
  Memberwise (under ["articulation", "art", "name"] Respelled)

/-- What two spellings of a candidate have under a key. -/
def CandidateMember (key : Text) : Value α → Value α → Prop :=
  if key = "articulation" then Respelled
  else if key = "notes" then Elementwise NoteRespelled
  else if key = "patterns" then Elementwise PatternRespelled
  else if key = "drums" then Elementwise DrumRespelled
  else if key = "articulation_changes" then Elementwise ChangeRespelled
  else Eq

/-- Two candidates that differ in the case of letters in names of articulations and drums only. -/
def CandidateRespelled : Value α → Value α → Prop := Memberwise CandidateMember

/-! ### Members of two spellings -/

variable {v w : Value α}

theorem rel_refl {β : Type} {r : β → β → Prop} (hr : ∀ x, r x x) (o : Option β) :
    Option.Rel r o o := by
  cases o with
  | none => exact .none
  | some x => exact .some (hr x)

theorem eq_of_rel_eq {β : Type} {o p : Option β} (h : Option.Rel Eq o p) : o = p := by
  cases h with
  | none => rfl
  | some h => rw [h]

theorem rel_of_map_eq {β γ : Type} {f : β → γ} {o p : Option β} (h : o.map f = p.map f) :
    Option.Rel (fun x y => f x = f y) o p := by
  cases o with
  | none =>
      cases p with
      | none => exact .none
      | some y => exact nomatch h
  | some x =>
      cases p with
      | none => exact nomatch h
      | some y => exact .some (Option.some_inj.mp h)

namespace Memberwise

variable {r : Text → Value α → Value α → Prop}

theorem isObject_eq (h : Memberwise r v w) : v.isObject = w.isObject := by
  cases h <;> rfl

theorem find?_rel (h : Memberwise r v w) {key : Text} (hrefl : ∀ v, r key v v) :
    Option.Rel (r key) (v.find? key) (w.find? key) := by
  cases h with
  | refl => exact rel_refl hrefl _
  | @object ms ns h =>
      change Option.Rel (r key) (lookup key ms) (lookup key ns)
      induction h with
      | nil => exact .none
      | cons hm _ ih =>
          rw [lookup_cons, lookup_cons, ← hm.1]
          split
          · rename_i hkey
            rw [eq_of_beq hkey] at hm
            exact .some hm.2
          · exact ih

theorem find?_eq (h : Memberwise r v w) {key : Text} (hkey : r key = Eq) :
    v.find? key = w.find? key :=
  eq_of_rel_eq (hkey ▸ h.find?_rel fun _ => hkey ▸ rfl)

theorem present?_eq (h : Memberwise r v w) {key : Text} (hkey : r key = Eq) :
    v.present? key = w.present? key := by
  rw [present?, present?, h.find?_eq hkey]

theorem first?_eq (h : Memberwise r v w) {keys : List Text} (hkeys : ∀ key ∈ keys, r key = Eq) :
    v.first? keys = w.first? keys := by
  induction keys with
  | nil => rfl
  | cons key keys ih =>
      have hrest := ih fun k hk => hkeys k (List.mem_cons_of_mem key hk)
      rw [first?, first?] at hrest ⊢
      rw [List.findSome?_cons, List.findSome?_cons, h.present?_eq (hkeys key List.mem_cons_self),
        hrest]

end Memberwise

theorem under_refl {keys : List Text} {r : Value α → Value α → Prop} (hr : ∀ v, r v v) (key : Text)
    (v : Value α) : under keys r key v v := by
  rw [under]
  split
  · exact hr v
  · rfl

theorem under_of_mem {keys : List Text} {key : Text} (h : key ∈ keys)
    (r : Value α → Value α → Prop) : under keys r key = r := if_pos h

theorem under_of_not_mem {keys : List Text} {key : Text} (h : key ∉ keys)
    (r : Value α → Value α → Prop) : under keys r key = Eq := if_neg h

section Under

variable {names : List Text} {r : Value α → Value α → Prop} (h : Memberwise (under names r) v w)

include h

theorem find?_eq_of_not_mem {key : Text} (hkey : key ∉ names) : v.find? key = w.find? key :=
  h.find?_eq (under_of_not_mem hkey r)

theorem first?_eq_of_not_mem {keys : List Text} (hkeys : ∀ key ∈ keys, key ∉ names) :
    v.first? keys = w.first? keys :=
  h.first?_eq fun key hkey => under_of_not_mem (hkeys key hkey) r

end Under

/-! ### Texts of two spellings -/

theorem Respelled.text?_lower (h : Respelled v w) :
    v.text?.map Text.lower = w.text?.map Text.lower := by
  cases h with
  | refl => rfl
  | text h => exact congrArg some h

theorem bind_text?_lower {o p : Option (Value α)} (h : Option.Rel Respelled o p) :
    (o.bind text?).map Text.lower = (p.bind text?).map Text.lower := by
  cases h with
  | none => rfl
  | some h => exact h.text?_lower

theorem Respelled.isNull_eq (h : Respelled v w) : v.isNull = w.isNull := by
  cases h <;> rfl

theorem respelled_of_under {keys : List Text} {key : Text} (h : under keys Respelled key v w) :
    Respelled v w := by
  rw [under] at h
  split at h
  · exact h
  · exact h ▸ .refl v

/-- The first of several members that is there, in two spellings. -/
theorem first?_rel {keys : List Text} (h : Memberwise (under keys Respelled) v w)
    (ks : List Text) : Option.Rel Respelled (v.first? ks) (w.first? ks) := by
  have hpresent (key : Text) : Option.Rel Respelled (v.present? key) (w.present? key) := by
    have hfind := h.find?_rel (under_refl .refl key)
    rw [present?, present?]
    generalize v.find? key = o at hfind ⊢
    generalize w.find? key = p at hfind ⊢
    cases hfind with
    | none => exact .none
    | some hab =>
        have hab := respelled_of_under hab
        rw [Option.filter_some, Option.filter_some, hab.isNull_eq]
        split
        · exact .some hab
        · exact .none
  induction ks with
  | nil => exact .none
  | cons key ks ih =>
      have hfirst := hpresent key
      rw [first?, first?, List.findSome?_cons, List.findSome?_cons]
      generalize v.present? key = o at hfirst ⊢
      generalize w.present? key = p at hfirst ⊢
      cases hfirst with
      | none => exact ih
      | some hab => exact .some hab

theorem first?_text_lower {keys : List Text} (h : Memberwise (under keys Respelled) v w)
    (ks : List Text) : ((v.first? ks).bind text?).map Text.lower =
      ((w.first? ks).bind text?).map Text.lower :=
  bind_text?_lower (first?_rel h ks)

/-- Lists that are related in turn have the same readings, if related elements do. -/
theorem filterMap_eq_of_forall₂ {β γ δ : Type} {r : β → γ → Prop} {f : β → Option δ}
    {g : γ → Option δ} (hfg : ∀ x y, r x y → f x = g y) {xs : List β} {ys : List γ}
    (h : List.Forall₂ r xs ys) : xs.filterMap f = ys.filterMap g := by
  induction h with
  | nil => rfl
  | cons hxy _ ih => rw [List.filterMap_cons, List.filterMap_cons, hfg _ _ hxy, ih]

/-- The elements of the arrays that two documents may have in one place. -/
theorem elements_rel {r : Value α → Value α → Prop} (hr : ∀ v, r v v) {o p : Option (Value α)}
    (h : Option.Rel (Elementwise r) o p) :
    List.Forall₂ r ((o.map elements).getD []) ((p.map elements).getD []) := by
  cases h with
  | none => exact .nil
  | some h =>
      cases h with
      | refl => exact List.forall₂_same.mpr fun v _ => hr v
      | array h => exact h

/-! ### Members of candidates -/

theorem candidateMember_refl (key : Text) (v : Value α) : CandidateMember key v v := by
  unfold CandidateMember
  split_ifs
  · exact .refl v
  · exact .refl v
  · exact .refl v
  · exact .refl v
  · exact .refl v
  · rfl

theorem candidateMember_articulation : CandidateMember (α := α) "articulation" = Respelled :=
  if_pos rfl

theorem candidateMember_notes : CandidateMember (α := α) "notes" = Elementwise NoteRespelled := by
  rw [CandidateMember.eq_def, if_neg (by decide), if_pos rfl]

theorem candidateMember_patterns :
    CandidateMember (α := α) "patterns" = Elementwise PatternRespelled := by
  rw [CandidateMember.eq_def, if_neg (by decide), if_neg (by decide), if_pos rfl]

theorem candidateMember_drums : CandidateMember (α := α) "drums" = Elementwise DrumRespelled := by
  rw [CandidateMember.eq_def, if_neg (by decide), if_neg (by decide), if_neg (by decide),
    if_pos rfl]

theorem candidateMember_changes :
    CandidateMember (α := α) "articulation_changes" = Elementwise ChangeRespelled := by
  rw [CandidateMember.eq_def, if_neg (by decide), if_neg (by decide), if_neg (by decide),
    if_neg (by decide), if_pos rfl]

namespace CandidateRespelled

variable (h : CandidateRespelled v w)

include h

theorem find?_rel_of {key : Text} {r : Value α → Value α → Prop} (hkey : CandidateMember key = r) :
    Option.Rel r (v.find? key) (w.find? key) :=
  hkey ▸ h.find?_rel (candidateMember_refl key)

theorem articulation_rel : Option.Rel Respelled (v.find? "articulation") (w.find? "articulation") :=
  h.find?_rel_of candidateMember_articulation

theorem notes_rel : Option.Rel (Elementwise NoteRespelled) (v.find? "notes") (w.find? "notes") :=
  h.find?_rel_of candidateMember_notes

theorem patterns_rel :
    Option.Rel (Elementwise PatternRespelled) (v.find? "patterns") (w.find? "patterns") :=
  h.find?_rel_of candidateMember_patterns

theorem drums_rel : Option.Rel (Elementwise DrumRespelled) (v.find? "drums") (w.find? "drums") :=
  h.find?_rel_of candidateMember_drums

theorem changes_rel : Option.Rel (Elementwise ChangeRespelled) (v.find? "articulation_changes")
    (w.find? "articulation_changes") :=
  h.find?_rel_of candidateMember_changes

theorem find?_eq_of_other {key : Text}
    (hkey : key ∉ (["articulation", "notes", "patterns", "drums", "articulation_changes"] :
      List Text)) : v.find? key = w.find? key := by
  simp only [List.mem_cons, List.not_mem_nil, or_false, not_or] at hkey
  obtain ⟨harticulation, hnotes, hpatterns, hdrums, hchanges⟩ := hkey
  exact h.find?_eq (by
    rw [CandidateMember.eq_def, if_neg harticulation, if_neg hnotes, if_neg hpatterns,
      if_neg hdrums, if_neg hchanges])

theorem member_eq {key : Text}
    (hkey : key ∉ (["articulation", "notes", "patterns", "drums", "articulation_changes"] :
      List Text)) : Part.member v key = Part.member w key := by
  rw [Part.member, Part.member, h.find?_eq_of_other hkey]

end CandidateRespelled

end Json.Value

open Json.Value (NoteRespelled PatternRespelled DrumRespelled ChangeRespelled CandidateRespelled
  find?_eq_of_not_mem first?_eq_of_not_mem first?_text_lower)

variable [Quantity α] {v w : Value α}

/-- The time of two objects that tell it alike. -/
theorem position_eq_of_not_mem {names : List Text} {r : Value α → Value α → Prop}
    (h : Value.Memberwise (Value.under names r) v w) {keys : List Text}
    (hkeys : ∀ key ∈ ("bar" : Text) :: "beat" :: keys, key ∉ names) (m : Meter) :
    Position.read? keys m v = Position.read? keys m w := by
  have hfirst : v.first? keys = w.first? keys :=
    first?_eq_of_not_mem h fun key hkey => hkeys key (by simp [hkey])
  have hbar : v.find? "bar" = w.find? "bar" := find?_eq_of_not_mem h (hkeys _ (by simp))
  have hbeat : v.find? "beat" = w.find? "beat" := find?_eq_of_not_mem h (hkeys _ (by simp))
  rw [Position.read?, Position.read?, Position.inBars?, Position.inBars?, hfirst, hbar, hbeat]

/-! ### Notes -/

namespace Note

omit [Quantity α] in
theorem tagOf_lower (h : NoteRespelled v w) : Text.lower (tagOf v) = Text.lower (tagOf w) := by
  have hlower (o : Option Text) : Text.lower ((o.map (Text.strip Text.isBlank)).getD []) =
      ((o.map Text.lower).map (Text.strip Text.isBlank)).getD [] := by
    cases o with
    | none => rfl
    | some t => exact Text.lower_strip t
  rw [tagOf, tagOf, hlower, hlower, first?_text_lower h]

theorem onset?_respelled (h : NoteRespelled v w) (m : Meter) :
    Position.onset? m v = Position.onset? m w :=
  position_eq_of_not_mem h (by decide) m

theorem defaultDuration_respelled (h : NoteRespelled v w) :
    (defaultDuration v : α) = defaultDuration w := by
  rw [defaultDuration, defaultDuration, first?_eq_of_not_mem h (by decide), Value.has, Value.has,
    Value.has, Value.has, find?_eq_of_not_mem h (by decide), find?_eq_of_not_mem h (by decide)]

theorem untimed?_respelled (h : NoteRespelled v w) (channel : Int) (default : α) :
    (untimed? channel default v).map lowered = (untimed? channel default w).map lowered := by
  have hwritten : v.first? ["pitch", "note", "midi"] = w.first? ["pitch", "note", "midi"] :=
    first?_eq_of_not_mem h (by decide)
  have hduration (d : α) : durationOr? d v = durationOr? d w := by
    rw [durationOr?, durationOr?, first?_eq_of_not_mem h (by decide)]
  have hvelocity (d : Int) : velocityOr? d v = velocityOr? d w := by
    rw [velocityOr?, velocityOr?, first?_eq_of_not_mem h (by decide)]
  have hchannel : v.first? ["chan", "channel"] = w.first? ["chan", "channel"] :=
    first?_eq_of_not_mem h (by decide)
  simp only [untimed?, hwritten, hduration, hvelocity, hchannel, Option.bind_eq_bind,
    Option.pure_def, Option.map_bind, Function.comp_def, Option.map_some, lowered, retag,
    tagOf_lower h]

theorem read?_respelled (h : NoteRespelled v w) (m : Meter) (channel : Int) :
    (read? m channel v).map lowered = (read? m channel w).map lowered := by
  by_cases hv : v.isObject = true
  · have hw : w.isObject = true := h.isObject_eq ▸ hv
    have htimed (start : α) (o : Option (Note α)) :
        (o.map fun n => { n with start }).map lowered =
          (o.map lowered).map fun n => { n with start } := by
      rw [Option.map_map, Option.map_map]
      rfl
    rw [read?_eq m channel hv, read?_eq m channel hw, onset?_respelled h, Option.map_bind,
      Option.map_bind]
    congr 1
    funext start
    rw [Function.comp_apply, Function.comp_apply, apply_ite (Option.map lowered),
      apply_ite (Option.map lowered), htimed, htimed, defaultDuration_respelled h,
      untimed?_respelled h]
  · have hw : w.isObject ≠ true := h.isObject_eq ▸ hv
    simp [read?, hv, hw]

end Note

/-! ### Drum hits -/

namespace Hit

omit [Quantity α] in
theorem drumName?_lower (h : DrumRespelled v w) :
    (drumName? v).map Text.lower = (drumName? w).map Text.lower := by
  have hlower (o : Option Text) : (o.filter (!·.isEmpty)).map Text.lower =
      (o.map Text.lower).filter (!·.isEmpty) := by
    rw [Option.filter_map]
    simp only [Function.comp_def, Text.isEmpty_lower]
  rw [drumName?, drumName?, hlower, hlower, first?_text_lower h]

theorem values?_respelled (h : DrumRespelled v w) (m : Meter) : values? m v = values? m w := by
  have hduration : v.first? ["dur_q", "dur"] = w.first? ["dur_q", "dur"] :=
    first?_eq_of_not_mem h (by decide)
  have hvelocity : v.first? ["vel", "velocity", "dyn"] = w.first? ["vel", "velocity", "dyn"] :=
    first?_eq_of_not_mem h (by decide)
  have honset : Position.onset? m v = Position.onset? m w := position_eq_of_not_mem h (by decide) m
  rw [values?, values?, honset, hduration, hvelocity]

theorem read_respelled (h : DrumRespelled v w) (length : α) (m : Meter) (i : Instrument α) :
    read length m i v = read length m i w := by
  have hname := Json.Value.rel_of_map_eq (drumName?_lower h)
  have hchannel : v.first? ["chan", "channel"] = w.first? ["chan", "channel"] :=
    first?_eq_of_not_mem h (by decide)
  rw [read, read, values?_respelled h, hchannel]
  generalize drumName? v = o at hname ⊢
  generalize drumName? w = p at hname ⊢
  cases hname with
  | none => rfl
  | some hname =>
      dsimp only
      rw [hname]

end Hit

/-! ### Articulation changes -/

theorem ArticulationChange.read?_respelled (h : ChangeRespelled v w) (m : Meter) :
    (read? m v).map lowered = (read? m w).map lowered := by
  have hname := Json.Value.rel_of_map_eq (first?_text_lower h ["articulation", "art", "name"])
  have hposition : Position.read? ["time_q", "start_q"] m v =
      Position.read? ["time_q", "start_q"] m w := position_eq_of_not_mem h (by decide) m
  rw [read?, read?, hposition]
  generalize (v.first? ["articulation", "art", "name"]).bind Value.text? = o at hname ⊢
  generalize (w.first? ["articulation", "art", "name"]).bind Value.text? = p at hname ⊢
  cases hname with
  | none => rfl
  | some hname =>
      simp only [Option.bind_eq_bind, Option.bind_some, Text.isEmpty_congr hname]
      split
      · rfl
      · simp [Option.map_bind, Function.comp_def, lowered, hname]

end MusicPart
