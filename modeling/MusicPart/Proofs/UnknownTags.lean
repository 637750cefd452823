import MusicPart.Proofs.CarriedChannels

/-!
# Unknown tags

A tag that the instrument does not know is erased, and a part is delivered as if it had not been
there: by its timeline, or by its other tags. Where there is no timeline and no known tag, however,
an unknown tag still counts as a tag. It keeps the general articulation from being delivered, and it
has the notes sorted.
-/

namespace MusicPart

open Quantity (Lawful)

variable {α : Type}

/-- Sorting leaves notes as they are if they stand in order of onset. -/
theorem Note.sortByStart_eq_iff [Quantity α] [Lawful α] {notes : List (Note α)}
    (h : ∀ n ∈ notes, n.isTimed = true) :
    sortByStart notes = notes ↔ notes.Pairwise fun a b => ¬b.start < a.start := by
  constructor
  · intro hsorted
    rw [← hsorted]
    exact (sortsByOnset_sortByStart h).ordered
  · intro hordered
    exact List.mergeSort_of_pairwise (hordered.imp fun hab => by simpa using hab)

namespace Articulator

variable (s : Articulator α)

/-! ### Erasing -/

theorem erase_of_untagged {n : Note α} (h : isTagged n = false) : s.erase n = n := by
  rw [erase, isUnknown, h]
  rfl

theorem map_erase_of_untagged {notes : List (Note α)} (h : ∀ n ∈ notes, isTagged n = false) :
    notes.map s.erase = notes := by
  rw [List.map_congr_left fun n hn => s.erase_of_untagged (h n hn), List.map_id']

theorem isUnknown_erase (n : Note α) : s.isUnknown (s.erase n) = false := by
  cases hentry : s.known? n with
  | none => rw [isUnknown, s.isTagged_erase_of_none hentry, Bool.false_and]
  | some a =>
      obtain ⟨-, hfind, herase⟩ := s.erase_of_some hentry
      rw [herase, isUnknown, knows, hfind]
      exact Bool.and_false _

theorem erase_erase (n : Note α) : s.erase (s.erase n) = s.erase n := by
  rw [erase, isUnknown_erase, if_neg Bool.false_ne_true]

/-- The tag that a note has once unknown ones are erased is a known one. -/
theorem isTagged_erase (n : Note α) : isTagged (s.erase n) = (s.known? n).isSome := by
  cases hentry : s.known? n with
  | none => exact s.isTagged_erase_of_none hentry
  | some a =>
      obtain ⟨htag, -, herase⟩ := s.erase_of_some hentry
      rw [herase, htag]
      rfl

/-- Notes with tags of which the instrument knows none. -/
structure OnlyUnknown (notes : List (Note α)) : Prop where
  tagged : ∃ n ∈ notes, isTagged n = true
  unknown : ∀ n ∈ notes, s.known? n = none

theorem untagged_of_onlyUnknown {notes : List (Note α)} (h : s.OnlyUnknown notes) :
    ∀ n ∈ notes.map s.erase, isTagged n = false := by
  intro n hn
  obtain ⟨m, hm, rfl⟩ := List.mem_map.mp hn
  exact s.isTagged_erase_of_none (h.unknown m hm)

/-- A known tag is a tag before and after unknown ones are erased. -/
theorem any_isTagged_erase {notes : List (Note α)} (h : ¬s.OnlyUnknown notes) :
    notes.any isTagged = (notes.map s.erase).any isTagged := by
  rw [Bool.eq_iff_iff, List.any_eq_true, List.any_eq_true]
  constructor
  · intro htagged
    obtain ⟨n, hn, hknown⟩ : ∃ n ∈ notes, s.known? n ≠ none := by
      by_contra hnone
      push Not at hnone
      exact h ⟨htagged, hnone⟩
    exact ⟨s.erase n, List.mem_map_of_mem hn,
      (s.isTagged_erase n).trans (Option.isSome_iff_ne_none.mpr hknown)⟩
  · rintro ⟨_, hmem, htag⟩
    obtain ⟨n, hn, rfl⟩ := List.mem_map.mp hmem
    obtain ⟨a, hentry⟩ := Option.isSome_iff_exists.mp ((s.isTagged_erase n).symm.trans htag)
    exact ⟨n, hn, (s.erase_of_some hentry).1⟩

/-! ### Notes without tags -/

theorem runHeads_of_untagged {notes : List (Note α)} (h : ∀ n ∈ notes, isTagged n = false)
    (current : Text) : s.runHeads current notes = [] := by
  induction notes with
  | nil => rfl
  | cons n notes ih =>
      rw [runHeads, h n List.mem_cons_self, Bool.not_false, Bool.true_or, if_pos rfl]
      exact ih fun m hm => h m (List.mem_cons_of_mem n hm)

theorem carry_of_untagged {notes : List (Note α)} (h : ∀ n ∈ notes, isTagged n = false) :
    s.carry none notes = notes := by
  induction notes with
  | nil => rfl
  | cons n notes ih =>
      rw [carry_cons, known?, h n List.mem_cons_self, if_neg Bool.false_ne_true]
      exact congrArg (n :: ·) (ih fun m hm => h m (List.mem_cons_of_mem n hm))

variable [Quantity α]

theorem assemble_nil (notes : List (Note α)) (label : Option Text) (unknown : Nat) :
    s.assemble notes [] label unknown = ⟨notes, [], [], [], label, unknown⟩ := by
  have hswitches : s.held (sortSwitches []) = [] := by rw [sortSwitches, List.mergeSort_nil, held]
  simp [assemble, hswitches]

/-- Without a timeline, tags and a general articulation there is nothing to deliver. -/
theorem resolve_of_untagged {notes : List (Note α)} (h : ∀ n ∈ notes, isTagged n = false) :
    s.resolve notes [] [] = ⟨notes, [], [], [], none, 0⟩ := by
  have hany : ¬notes.any isTagged = true := by simpa using h
  have hunknown : notes.countP s.isUnknown = 0 :=
    List.countP_eq_zero.mpr fun n hn => by simp [isUnknown, h n hn]
  rw [resolve, if_neg (by simp), if_neg hany, if_pos (by rfl), s.map_erase_of_untagged h, hunknown,
    assemble_nil]

theorem label_resolve_of_untagged {notes : List (Note α)} (h : ∀ n ∈ notes, isTagged n = false)
    {general : Text} (hgeneral : general ≠ []) :
    (s.resolve notes [] general).label = some general := by
  have hany : ¬notes.any isTagged = true := by simpa using h
  have hempty : ¬List.isEmpty general = true := by simpa using hgeneral
  rw [resolve, if_neg (by simp), if_neg hany, if_neg hempty]
  cases s.articulations.find? general <;> rfl

/-- Tags that are all unknown have the notes sorted, and nothing is delivered. -/
theorem resolve_of_onlyUnknown {notes : List (Note α)} (h : s.OnlyUnknown notes)
    (general : Text) : s.resolve notes [] general =
      ⟨Note.sortByStart (notes.map s.erase), [], [], [], none, notes.countP s.isUnknown⟩ := by
  have hany : notes.any isTagged = true := List.any_eq_true.mpr h.tagged
  have huntagged : ∀ n ∈ Note.sortByStart (notes.map s.erase), isTagged n = false :=
    fun n hn => s.untagged_of_onlyUnknown h n ((Note.sortByStart_perm _).mem_iff.mp hn)
  have hfilter : (Note.sortByStart (notes.map s.erase)).filter isTagged = [] :=
    List.filter_eq_nil_iff.mpr fun n hn => by simp [huntagged n hn]
  rw [resolve, if_neg (by simp), if_pos hany]
  dsimp only
  rw [s.runHeads_of_untagged huntagged, s.carry_of_untagged huntagged, ite_self, hfilter,
    assemble_nil]
  rfl

/-! ### What unknown tags change -/

/-- What is delivered depends on the erased notes and, without a timeline, on whether there was a
tag. -/
theorem resolve_congr {notes notes' : List (Note α)}
    (herase : notes.map s.erase = notes'.map s.erase) {timeline : List (ArticulationChange α)}
    (htagged : timeline = [] → notes.any isTagged = notes'.any isTagged) (general : Text) :
    { s.resolve notes timeline general with unknown := 0 } =
      { s.resolve notes' timeline general with unknown := 0 } := by
  rw [resolve, resolve, herase]
  cases timeline with
  | cons c timeline => rfl
  | nil =>
      simp only [List.isEmpty_nil, Bool.not_true, Bool.false_eq_true, if_false, htagged rfl]
      by_cases hany : notes'.any isTagged = true
      · simp only [hany, if_true]
        rfl
      · simp only [hany]
        by_cases hgeneral : List.isEmpty general = true
        · simp only [hgeneral, if_true]
          rfl
        · simp only [hgeneral]
          cases s.articulations.find? general <;> rfl

/-- Erasing tags does not change whether notes stand in order of onset. -/
theorem sortByStart_map_erase_iff [Lawful α] {notes : List (Note α)}
    (h : ∀ n ∈ notes, n.isTimed = true) :
    Note.sortByStart (notes.map s.erase) = notes.map s.erase ↔
      notes.Pairwise fun a b => ¬b.start < a.start := by
  have herased : ∀ n ∈ notes.map s.erase, n.isTimed = true := by
    intro n hn
    obtain ⟨m, hm, rfl⟩ := List.mem_map.mp hn
    rw [Note.isTimed, start_erase]
    exact h m hm
  rw [Note.sortByStart_eq_iff herased, List.pairwise_map]
  simp only [start_erase]

/-- Unknown tags make no difference to what is delivered, but for their number, unless there is no
timeline and no known tag. They then keep the general articulation from being delivered, and they
have the notes sorted. -/
theorem resolve_erase_iff [Lawful α] (notes : List (Note α))
    (timeline : List (ArticulationChange α)) (general : Text) :
    let d := s.resolve notes timeline general
    let e := s.resolve (notes.map s.erase) timeline general
    ({ d with unknown := 0 } = { e with unknown := 0 } ↔
      (timeline = [] → s.OnlyUnknown notes →
        general = [] ∧ Note.sortByStart (notes.map s.erase) = notes.map s.erase)) ∧
      (timeline = [] → s.OnlyUnknown notes →
        d = ⟨Note.sortByStart (notes.map s.erase), [], [], [], none, notes.countP s.isUnknown⟩) ∧
      ((∀ n ∈ notes, n.isTimed = true) →
        (Note.sortByStart (notes.map s.erase) = notes.map s.erase ↔
          notes.Pairwise fun a b => ¬b.start < a.start)) := by
  intro d e
  refine ⟨⟨?_, ?_⟩, ?_, ?_⟩
  · rintro hsame rfl h
    have hd : d = _ := s.resolve_of_onlyUnknown h general
    rw [hd] at hsame
    by_cases hgeneral : general = []
    · have he : e = _ := hgeneral ▸ s.resolve_of_untagged (s.untagged_of_onlyUnknown h)
      rw [he] at hsame
      exact ⟨hgeneral, congrArg Delivered.notes hsame⟩
    · have hlabel : e.label = some general :=
        s.label_resolve_of_untagged (s.untagged_of_onlyUnknown h) hgeneral
      have hnone : none = e.label := congrArg Delivered.label hsame
      rw [hlabel] at hnone
      cases hnone
  · intro hsorted
    by_cases h : timeline = [] ∧ s.OnlyUnknown notes
    · obtain ⟨rfl, h⟩ := h
      obtain ⟨rfl, horder⟩ := hsorted rfl h
      have hd : d = _ := s.resolve_of_onlyUnknown h []
      have he : e = _ := s.resolve_of_untagged (s.untagged_of_onlyUnknown h)
      rw [hd, he, horder]
    · refine s.resolve_congr ?_ (fun htimeline => ?_) general
      · rw [List.map_map]
        exact List.map_congr_left fun n _ => (s.erase_erase n).symm
      · exact s.any_isTagged_erase fun honly => h ⟨htimeline, honly⟩
  · rintro rfl h
    exact s.resolve_of_onlyUnknown h general
  · exact s.sortByStart_map_erase_iff

/-- A stroke that the fiddle does not know. -/
def slapped : List (Note Rat) := [⟨0, 1, 60, 90, 5, "slap"⟩]

/-- The slapped tone is not bowed either, though the part as a whole is. -/
theorem slapped_not_bowed :
    let d := (fiddle .keyswitch).resolve slapped [] "arco"
    let e := (fiddle .keyswitch).resolve (slapped.map (fiddle .keyswitch).erase) [] "arco"
    { d with unknown := 0 } ≠ { e with unknown := 0 } ∧ d.label = none ∧ d.keyswitches = [] := by
  have hunknown : (fiddle .keyswitch).OnlyUnknown slapped := by
    constructor <;> decide +kernel
  obtain ⟨hsame, hd, -⟩ := (fiddle .keyswitch).resolve_erase_iff slapped [] "arco"
  refine ⟨fun h => ?_, ?_⟩
  · exact absurd (hsame.mp h rfl hunknown).1 (by decide)
  · rw [hd rfl hunknown]
    exact ⟨rfl, rfl⟩

end Articulator

end MusicPart
