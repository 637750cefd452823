import MusicPart.Proofs.SettledHandoffs

/-!
# Completed handoffs

What a handoff says stays in its place when it is validated, unless it contradicts the notes or is
too long a suggestion. With what is said of settled handoffs this tells all that validating does.
-/

namespace MusicPart

open Json (Value)

variable {α : Type} [Quantity α]

/-! ### Members in their places -/

namespace Json.Value

/-- Each member stays in its place. What said something stays too, or is replaced as allowed. -/
def Carried (allowed : Text × Value α → Value α → Prop) (ms ns : List (Text × Value α)) : Prop :=
  ∀ (i : Nat) (m : Text × Value α), ms[i]? = some m →
    ∃ x, ns[i]? = some (m.1, x) ∧ (m.2.truthy = true → x = m.2 ∨ allowed m x)

namespace Carried

variable {R S : Text × Value α → Value α → Prop} {ms ns os : List (Text × Value α)}

theorem refl (R : Text × Value α → Value α → Prop) (ms : List (Text × Value α)) :
    Carried R ms ms := fun _ m hm => ⟨m.2, hm, fun _ => .inl rfl⟩

theorem mono (h : Carried R ms ns) (hsub : ∀ m x, m.2.truthy = true → R m x → S m x) :
    Carried S ms ns := by
  intro i m hm
  obtain ⟨x, hx, hkept⟩ := h i m hm
  exact ⟨x, hx, fun htruthy => (hkept htruthy).imp_right (hsub m x htruthy)⟩

/-- A second change may not touch what a first one put there. -/
theorem trans (h : Carried R ms ns) (h' : Carried S ns os)
    (hapart : ∀ m x, R m x → x.truthy = true ∧ ∀ y, ¬S (m.1, x) y) :
    Carried (fun m x => R m x ∨ S m x) ms os := by
  intro i m hm
  obtain ⟨x, hx, hkept⟩ := h i m hm
  obtain ⟨y, hy, hkept'⟩ := h' i _ hx
  refine ⟨y, hy, fun htruthy => ?_⟩
  rcases hkept htruthy with rfl | hR
  · exact (hkept' htruthy).imp_right .inr
  · obtain ⟨hx', hnot⟩ := hapart m x hR
    rcases hkept' hx' with rfl | hS
    · exact .inr (.inl hR)
    · exact absurd hS (hnot y)

end Carried

/-- The member that is looked up is the only one that is replaced. -/
theorem carried_insert (key : Text) (new : Value α) (ms : List (Text × Value α)) :
    Carried (fun m x => m.1 = key ∧ lookup key ms = some m.2 ∧ x = new) ms
      (insert key new ms) := by
  induction ms with
  | nil => intro i m hm; simp at hm
  | cons a ms ih =>
      intro i m hm
      rw [insert]
      by_cases ha : (a.1 == key) = true
      · rw [if_pos ha]
        cases i with
        | zero =>
            cases hm
            exact ⟨new, rfl, fun _ => .inr ⟨eq_of_beq ha, by rw [lookup_cons, if_pos ha], rfl⟩⟩
        | succ i => exact ⟨m.2, hm, fun _ => .inl rfl⟩
      · rw [if_neg ha]
        cases i with
        | zero =>
            cases hm
            exact ⟨a.2, rfl, fun _ => .inl rfl⟩
        | succ i =>
            obtain ⟨x, hx, hkept⟩ := ih i m hm
            refine ⟨x, hx, fun htruthy => (hkept htruthy).imp_right ?_⟩
            rintro ⟨hkey, hlookup, hnew⟩
            exact ⟨hkey, by rw [lookup_cons, if_neg ha, hlookup], hnew⟩

theorem carried_set {v : Value α} (h : v.isObject = true) (key : Text) (new : Value α) :
    Carried (fun m x => m.1 = key ∧ v.find? key = some m.2 ∧ x = new) v.members
      (v.set key new).members := by
  cases v with
  | object ms => exact carried_insert key new ms
  | _ => exact nomatch h

end Json.Value

namespace Handoff

open Json.Value (Carried isObject_set)

/-! ### What is filled -/

section Filled

variable {v : Value α}

theorem carried_fill (h : v.isObject = true) (source : Value α) (key : Text) :
    Carried (fun _ _ => False) v.members (fill source v key).members := by
  rw [fill]
  split
  · exact .refl _ _
  · rename_i hsilent
    refine (Value.carried_set h key _).mono fun m x htruthy hm => hsilent ?_
    rw [tells, hm.2.1]
    exact htruthy

theorem carried_complete (h : v.isObject = true) (source : Value α) :
    Carried (fun _ _ => False) v.members (complete source v).members := by
  rw [complete]
  induction required generalizing v with
  | nil => exact .refl _ _
  | cons key keys ih =>
      have hkept := (carried_fill h source key).trans (ih (isObject_fill h source key))
        fun _ _ => False.elim
      exact hkept.mono fun _ _ _ h => h.elim id id

end Filled

/-! ### What is replaced -/

section Replaced

variable {v : Value α}

/-- What replacing a member may change: the member, and the flag that tells of it. -/
def Replaced (v : Value α) (wrong : Bool) (key flag new : Text) (m : Text × Value α)
    (x : Value α) : Prop :=
  wrong = true ∧
    (m.1 = key ∧ v.find? key = some m.2 ∧ x = string new ∨ m.1 = flag ∧ x = .bool true)

theorem carried_replace (hv : v.isObject = true) {key flag new : Text} (hne : key ≠ flag)
    (hnew : new ≠ []) (wrong : Bool) :
    Carried (Replaced v wrong key flag new) v.members (replace wrong key flag new v).members := by
  rw [replace]
  split
  · rename_i hwrong
    have hset := (Value.carried_set hv key (string new)).trans
      (Value.carried_set (isObject_set hv key _) flag (.bool true))
    refine (hset ?_).mono ?_
    · rintro m x ⟨hkey, -, rfl⟩
      exact ⟨truthy_string hnew, fun y hy => hne (hkey.symm.trans hy.1)⟩
    · rintro m x - (hkey | ⟨hflag, -, hx⟩)
      · exact ⟨hwrong, .inl hkey⟩
      · exact ⟨hwrong, .inr ⟨hflag, hx⟩⟩
  · exact .refl _ _

/-- Two members under different keys are replaced independently. -/
theorem carried_replace_replace (hv : v.isObject = true) {key flag new key' flag' new' : Text}
    (hkeys : [key, flag, key', flag'].Nodup) (hnew : new ≠ []) (hnew' : new' ≠ [])
    (wrong wrong' : Bool) :
    Carried (fun m x => Replaced v wrong key flag new m x ∨ Replaced v wrong' key' flag' new' m x)
      v.members (replace wrong' key' flag' new' (replace wrong key flag new v)).members := by
  obtain ⟨⟨hne, hkey, hkey'⟩, ⟨hflag, hflag'⟩, hne'⟩ : (key ≠ flag ∧ key ≠ key' ∧ key ≠ flag') ∧
      (flag ≠ key' ∧ flag ≠ flag') ∧ key' ≠ flag' := by simpa using hkeys
  have hfirst := carried_replace hv hne hnew wrong
  have hsecond := carried_replace (isObject_replace hv wrong key flag new) hne' hnew' wrong'
  refine (hfirst.trans hsecond ?_).mono ?_
  · rintro m x ⟨-, hm⟩
    have hapart (y : Value α) (hother : m.1 ≠ key' ∧ m.1 ≠ flag') :
        ¬Replaced (replace wrong key flag new v) wrong' key' flag' new' (m.1, x) y := by
      rintro ⟨-, h | h⟩
      · exact hother.1 h.1
      · exact hother.2 h.1
    rcases hm with ⟨hm, -, rfl⟩ | ⟨hm, rfl⟩
    · exact ⟨truthy_string hnew, fun y => hapart y (hm ▸ ⟨hkey, hkey'⟩)⟩
    · exact ⟨rfl, fun y => hapart y (hm ▸ ⟨hflag, hflag'⟩)⟩
  · intro m x _ h
    rw [Replaced, Replaced, find?_replace hkey.symm hflag.symm] at h
    exact h

theorem carried_shorten (v : Value α) :
    Carried (fun m x => m.1 = "suggestion_for_next" ∧ ∃ t, m.2 = string t ∧
      maxSuggestion < t.length ∧ x = string (t.take maxSuggestion))
      v.members (shorten v).members := by
  rw [shorten]
  split
  · rename_i t ht
    obtain ⟨w, hw, htext⟩ := Option.bind_eq_some_iff.mp ht
    split
    · rename_i hlong
      refine (Value.carried_set (Value.isObject_of_find? hw) _ _).mono ?_
      rintro m x - ⟨hkey, hm, rfl⟩
      cases hw.symm.trans hm
      cases hm2 : m.2 with
      | string s =>
          rw [hm2] at htext
          cases htext
          exact ⟨hkey, t, rfl, hlong, rfl⟩
      | _ =>
          rw [hm2] at htext
          cases htext
    · exact .refl _ _
  · exact .refl _ _

omit [Quantity α] in
/-- What a handoff claims about the notes is a text. -/
theorem exists_string_of_claim {wrong : Text → Bool} (hnil : wrong [] = false) {key : Text}
    (h : wrong (claim v key) = true) :
    ∃ t, v.find? key = some (string t) ∧ wrong (Text.lower t) = true := by
  rw [claim] at h
  cases hw : v.find? key with
  | none =>
      rw [hw] at h
      exact absurd (hnil.symm.trans h) Bool.false_ne_true
  | some w =>
      rw [hw] at h
      cases w with
      | string t => exact ⟨t, rfl, h⟩
      | _ => exact absurd (hnil.symm.trans h) Bool.false_ne_true

/-- A wrong claim was there before anything was filled in. -/
theorem exists_string_of_complete (hv : v.isObject = true) {source : Value α} {key : Text}
    (hkey : key ∈ required) (hsource : tells source key = true) {wrong : Text → Bool}
    (hnil : wrong [] = false) (hright : wrong (claim source key) = false)
    (h : wrong (claim (complete source v) key) = true) :
    ∃ t, v.find? key = some (string t) ∧ wrong (Text.lower t) = true := by
  have hfind := find?_complete_of_mem hv source hkey
  by_cases htells : tells v key = true
  · rw [if_pos htells] at hfind
    rw [claim_of_find? hfind] at h
    exact exists_string_of_claim hnil h
  · obtain ⟨w, hw, -⟩ := (Option.any_eq_true ..).mp hsource
    rw [if_neg htells, hw, Option.getD_some, ← hw] at hfind
    rw [claim_of_find? hfind, hright] at h
    exact absurd h Bool.false_ne_true

/-- How a member that says something may change: a range or a feel that contradicts the notes gives
way to theirs, of which a flag tells, and a suggestion is cut to 1000 bytes. -/
inductive Revised (length : α) (notes : List (Note α)) (v : Value α) :
    Text × Value α → Value α → Prop
  | range {t : Text} (h : contradictsRange (Character.register notes) (Text.lower t) = true) :
      Revised length notes v ("occupied_range", string t) (string (Character.register notes).name)
  | rangeFlag {t : Text} (ht : v.find? "occupied_range" = some (string t))
      (h : contradictsRange (Character.register notes) (Text.lower t) = true) (old : Value α) :
      Revised length notes v ("_range_corrected", old) (.bool true)
  | feel {t : Text} (h : contradictsFeel (Character.feel length notes) (Text.lower t) = true) :
      Revised length notes v ("rhythmic_feel", string t) (string (Character.feel length notes).name)
  | feelFlag {t : Text} (ht : v.find? "rhythmic_feel" = some (string t))
      (h : contradictsFeel (Character.feel length notes) (Text.lower t) = true) (old : Value α) :
      Revised length notes v ("_rhythmic_corrected", old) (.bool true)
  | suggestion {t : Text} (h : 1000 < t.length) :
      Revised length notes v ("suggestion_for_next", string t) (string (t.take 1000))

variable {length : α} {notes : List (Note α)}

theorem carried_correct (hv : v.isObject = true) (length : α) (notes : List (Note α)) :
    Carried (fun m x =>
      Replaced v (contradictsRange (Character.register notes) (claim v "occupied_range"))
        "occupied_range" "_range_corrected" (Character.register notes).name m x ∨
      Replaced v (contradictsFeel (Character.feel length notes) (claim v "rhythmic_feel"))
        "rhythmic_feel" "_rhythmic_corrected" (Character.feel length notes).name m x)
      v.members (correct length notes v).members := by
  rw [correct_eq]
  exact carried_replace_replace hv (by decide) (Register.name_ne_nil _) (Feel.name_ne_nil _) _ _

theorem contradictsRange_nil (r : Register) : contradictsRange r [] = false := by
  cases r <;> rfl

theorem contradictsFeel_nil (f : Feel) : contradictsFeel f [] = false := by
  cases f <;> rfl

omit [Quantity α] in
theorem Replaced.key_of {wrong : Bool} {key flag new : Text} {m : Text × Value α} {x : Value α}
    (h : Replaced v wrong key flag new m x) : m.1 = key ∨ m.1 = flag :=
  h.2.imp And.left And.left

theorem Replaced.truthy {wrong : Bool} {key flag new : Text} {m : Text × Value α} {x : Value α}
    (h : Replaced v wrong key flag new m x) (hnew : new ≠ []) : x.truthy = true := by
  obtain ⟨-, ⟨-, -, rfl⟩ | ⟨-, rfl⟩⟩ := h
  · exact truthy_string hnew
  · rfl

/-- What is replaced after filling was a text that contradicts, and it was there before. -/
theorem Replaced.of_complete (hv : v.isObject = true) {source : Value α} {key flag new : Text}
    (hkey : key ∈ required) (hsource : tells source key = true) {wrong : Text → Bool}
    (hnil : wrong [] = false) (hright : wrong (claim source key) = false) {m : Text × Value α}
    {x : Value α} (h : Replaced (complete source v) (wrong (claim (complete source v) key)) key flag
      new m x) :
    (∃ t, m = (key, string t) ∧ wrong (Text.lower t) = true ∧ x = string new) ∨
      m.1 = flag ∧ x = .bool true ∧
        ∃ t, v.find? key = some (string t) ∧ wrong (Text.lower t) = true := by
  obtain ⟨hwrong, ⟨hm, hfind, hx⟩ | ⟨hm, hx⟩⟩ := h
  · obtain ⟨t, ht, hwrong⟩ := exists_string_of_claim hnil hwrong
    exact .inl ⟨t, Prod.ext hm (Option.some_inj.mp (hfind.symm.trans ht)), hwrong, hx⟩
  · exact .inr ⟨hm, hx, exists_string_of_complete hv hkey hsource hnil hright hwrong⟩

theorem carried_validate (length : α) (notes : List (Note α)) (v : Value α) :
    Carried (Revised length notes v) v.members (validate length notes v).members := by
  rw [validate]
  split
  · rename_i hnil
    rw [List.isEmpty_iff.mp hnil]
    intro i m hm
    cases hm
  · rename_i hmembers
    have hv := Value.isObject_of_members_ne_nil (v := v) (by simpa using hmembers)
    have hc := isObject_complete hv (ofNotes length [] notes)
    have hshort := (carried_correct hc length notes).trans (carried_shorten _) ?_
    refine ((carried_complete hv _).trans hshort fun _ _ => False.elim).mono ?_
    · rintro ⟨key, old⟩ x - (hfalse | (hrange | hfeel) | ⟨hkey, t, hm, hlong, hx⟩)
      · exact hfalse.elim
      · rcases hrange.of_complete hv (by decide) (tells_ofNotes length notes (by decide))
          (contradictsRange_nil _) (settled_ofNotes length notes).range with
          ⟨t, hm, hwrong, rfl⟩ | ⟨hkey, rfl, t, ht, hwrong⟩
        · cases hm
          exact .range hwrong
        · cases hkey
          exact .rangeFlag ht hwrong old
      · rcases hfeel.of_complete hv (by decide) (tells_ofNotes length notes (by decide))
          (contradictsFeel_nil _) (settled_ofNotes length notes).feel with
          ⟨t, hm, hwrong, rfl⟩ | ⟨hkey, rfl, t, ht, hwrong⟩
        · cases hm
          exact .feel hwrong
        · cases hkey
          exact .feelFlag ht hwrong old
      · cases hkey
        cases hm
        cases hx
        exact .suggestion hlong
    · have hkeys : Text.ofString "suggestion_for_next" ∉ [Text.ofString "occupied_range",
        "_range_corrected", "rhythmic_feel", "_rhythmic_corrected"] := by decide
      rintro m x (h | h)
      · refine ⟨h.truthy (Register.name_ne_nil _), fun y hy => hkeys ?_⟩
        rcases h.key_of with hm | hm <;> simp [hy.1.symm.trans hm]
      · refine ⟨h.truthy (Feel.name_ne_nil _), fun y hy => hkeys ?_⟩
        rcases h.key_of with hm | hm <;> simp [hy.1.symm.trans hm]

end Replaced

end Handoff

end MusicPart
