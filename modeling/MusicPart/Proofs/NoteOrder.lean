import MusicPart.Proofs.ExactTime
import MusicPart.Note.Intake

/-!
# The order of notes

Sorting rearranges notes and puts them in order of onset, then pitch, then channel, or in order of
onset alone. What holds between any two notes of a list, whichever comes first, survives it.
-/

namespace MusicPart.Note

/-- The order of onset, then pitch, then channel. -/
def InOrder (a b : Note Rat) : Prop :=
  a.start < b.start ∨ a.start = b.start ∧
    (a.pitch < b.pitch ∨ a.pitch = b.pitch ∧ a.channel ≤ b.channel)

theorem InOrder.start_le {a b : Note Rat} (h : InOrder a b) : a.start ≤ b.start := by
  rcases h with h | ⟨h, -⟩
  · exact h.le
  · exact h.le

theorem not_precedes_iff (a b : Note Rat) : (!precedes b a) = true ↔ InOrder a b := by
  rw [Bool.not_eq_true', precedes, InOrder]
  by_cases hs : b.start = a.start
  · by_cases hp : b.pitch = a.pitch
    · simp [hs, hp]
    · simp only [hs, bne_self_eq_false, Bool.false_eq_true, if_false, bne_iff_ne, ne_eq, hp,
        not_false_eq_true, if_true, decide_eq_false_iff_not, not_lt, lt_irrefl, false_or, true_and]
      constructor
      · intro h
        exact Or.inl (lt_of_le_of_ne h (Ne.symm hp))
      · rintro (h | ⟨h, -⟩)
        · exact h.le
        · exact absurd h.symm hp
  · simp only [bne_iff_ne, ne_eq, hs, not_false_eq_true, if_true, decide_eq_false_iff_not, not_lt]
    constructor
    · intro h
      exact Or.inl (lt_of_le_of_ne h (Ne.symm hs))
    · rintro (h | ⟨h, -⟩)
      · exact h.le
      · exact absurd h.symm hs

theorem InOrder.trans {a b c : Note Rat} (hab : InOrder a b) (hbc : InOrder b c) :
    InOrder a c := by
  rcases hab with hab | ⟨hab, hp⟩
  · rcases hbc with hbc | ⟨hbc, -⟩
    · exact Or.inl (hab.trans hbc)
    · exact Or.inl (hbc ▸ hab)
  · rcases hbc with hbc | ⟨hbc, hq⟩
    · exact Or.inl (hab ▸ hbc)
    · refine Or.inr ⟨hab.trans hbc, ?_⟩
      omega

theorem InOrder.total (a b : Note Rat) : InOrder a b ∨ InOrder b a := by
  rcases lt_trichotomy a.start b.start with h | h | h
  · exact Or.inl (Or.inl h)
  · rcases lt_trichotomy a.pitch b.pitch with hp | hp | hp
    · exact Or.inl (Or.inr ⟨h, Or.inl hp⟩)
    · rcases le_total a.channel b.channel with hc | hc
      · exact Or.inl (Or.inr ⟨h, Or.inr ⟨hp, hc⟩⟩)
      · exact Or.inr (Or.inr ⟨h.symm, Or.inr ⟨hp.symm, hc⟩⟩)
    · exact Or.inr (Or.inr ⟨h.symm, Or.inl hp⟩)
  · exact Or.inr (Or.inl h)

/-- The order of onset, then pitch. -/
def InPitchOrder (a b : Note Rat) : Prop :=
  a.start < b.start ∨ a.start = b.start ∧ a.pitch ≤ b.pitch

theorem InPitchOrder.trans {a b c : Note Rat} (hab : InPitchOrder a b) (hbc : InPitchOrder b c) :
    InPitchOrder a c := by
  rcases hab with hab | ⟨hab, hp⟩
  · rcases hbc with hbc | ⟨hbc, -⟩
    · exact Or.inl (hab.trans hbc)
    · exact Or.inl (hbc ▸ hab)
  · rcases hbc with hbc | ⟨hbc, hq⟩
    · exact Or.inl (hab ▸ hbc)
    · exact Or.inr ⟨hab.trans hbc, hp.trans hq⟩

theorem InPitchOrder.total (a b : Note Rat) : InPitchOrder a b ∨ InPitchOrder b a := by
  rcases lt_trichotomy a.start b.start with h | h | h
  · exact Or.inl (Or.inl h)
  · rcases le_total a.pitch b.pitch with hp | hp
    · exact Or.inl (Or.inr ⟨h, hp⟩)
    · exact Or.inr (Or.inr ⟨h.symm, hp⟩)
  · exact Or.inr (Or.inl h)

/-! ### Sorting -/

/-- A sorted list is in the order that its comparison decides. -/
theorem pairwise_mergeSort_of_iff {β : Type} {le : β → β → Bool} {R : β → β → Prop}
    (hle : ∀ a b, le a b = true ↔ R a b) (htrans : ∀ {a b c}, R a b → R b c → R a c)
    (htotal : ∀ a b, R a b ∨ R b a) (xs : List β) : (xs.mergeSort le).Pairwise R := by
  have h : (xs.mergeSort le).Pairwise (fun a b => le a b = true) := by
    refine List.pairwise_mergeSort (fun a b c hab hbc => ?_) (fun a b => ?_) xs
    · exact (hle a c).mpr (htrans ((hle a b).mp hab) ((hle b c).mp hbc))
    · rw [Bool.or_eq_true, hle, hle]
      exact htotal a b
  exact h.imp fun {a b} hab => (hle a b).mp hab

section Rearranging

variable {α : Type} [Quantity α] (notes : List (Note α))

theorem sort_perm : (sort notes).Perm notes := List.mergeSort_perm _ _

theorem sortByStart_perm : (sortByStart notes).Perm notes := List.mergeSort_perm _ _

theorem sortByPitch_perm : (sortByPitch notes).Perm notes := List.mergeSort_perm _ _

end Rearranging

variable (notes : List (Note Rat))

theorem sort_inOrder : (sort notes).Pairwise InOrder :=
  pairwise_mergeSort_of_iff not_precedes_iff InOrder.trans InOrder.total notes

theorem sortByStart_sorted : (sortByStart notes).Pairwise (fun a b => a.start ≤ b.start) := by
  refine pairwise_mergeSort_of_iff (R := fun a b : Note Rat => a.start ≤ b.start) (fun a b => ?_)
    (fun hab hbc => le_trans hab hbc) (fun a b => le_total a.start b.start) notes
  simp

theorem sortByPitch_inOrder : (sortByPitch notes).Pairwise InPitchOrder := by
  refine pairwise_mergeSort_of_iff (R := InPitchOrder) (fun a b => ?_) InPitchOrder.trans
    InPitchOrder.total notes
  rw [InPitchOrder]
  by_cases hs : b.start = a.start
  · simp [hs]
  · have hlt : a.start ≤ b.start ↔ a.start < b.start :=
      ⟨fun h => lt_of_le_of_ne h (Ne.symm hs), le_of_lt⟩
    simpa [hs, Ne.symm hs] using hlt

theorem sortByPitch_sorted : (sortByPitch notes).Pairwise (fun a b => a.start ≤ b.start) := by
  refine (sortByPitch_inOrder notes).imp fun {a b} hab => ?_
  rcases hab with h | ⟨h, -⟩
  · exact h.le
  · exact h.le

end MusicPart.Note
