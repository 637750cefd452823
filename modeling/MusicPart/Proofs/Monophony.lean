import MusicPart.Proofs.Shortening

/-!
# One note at a time

The monophonic form of a list of notes keeps onsets a shortest note apart and ends each note before
the next one, up to the slack that times are compared with.
-/

namespace MusicPart.Note

/-- One of the notes is over when the other one begins. -/
def Apart (a b : Note Rat) : Prop := a.finish ≤ b.start + slack ∨ b.finish ≤ a.start + slack

theorem lasting_apart : Lasting Apart where
  symm h := h.symm
  shorten := by
    intro a b a' h hs
    rcases h with h | h
    · exact Or.inl (hs.finish_le.trans h)
    · exact Or.inr (hs.start_eq ▸ h)

theorem Apart.finish_le {a b : Note Rat} (h : Apart a b) (hab : a.start ≤ b.start)
    (hb : shortest ≤ b.duration) : a.finish ≤ b.start + slack := by
  rcases h with h | h
  · exact h
  · simp only [finish_eq, shortest_eq, slack_eq] at *
    linarith

/-! ### Onsets -/

/-- The second onset is far enough after the first one for both notes to stay. -/
def Spaced (a b : Note Rat) : Prop := a.start + (shortest - slack) ≤ b.start

theorem apart_sublist {α : Type} [Quantity α] (last : Option α) (notes : List (Note α)) :
    (apart last notes).Sublist notes := by
  induction notes generalizing last with
  | nil => exact .slnil
  | cons n notes ih =>
      rw [apart]
      split
      · exact (ih last).cons n
      · exact (ih _).cons_cons n

theorem apart_spaced (last : Option Rat) (notes : List (Note Rat))
    (hs : notes.Pairwise (fun a b => a.start ≤ b.start)) (hl : ∀ t ∈ last, ∀ n ∈ notes, t ≤ n.start) :
    (∀ t ∈ last, ∀ n ∈ apart last notes, t + (shortest - slack) ≤ n.start) ∧
      (apart last notes).Pairwise Spaced := by
  induction notes generalizing last with
  | nil => simp [apart]
  | cons n notes ih =>
      obtain ⟨hn, hs⟩ := List.pairwise_cons.mp hs
      rw [apart]
      split
      · exact ih last hs fun t ht m hm => hl t ht m (by simp [hm])
      · rename_i hfar
        obtain ⟨hnext, hpair⟩ := ih (some n.start) hs (by simpa using hn)
        have hnext : ∀ m ∈ apart (some n.start) notes, Spaced n m := fun m hm => hnext _ rfl m hm
        refine ⟨?_, List.pairwise_cons.mpr ⟨hnext, hpair⟩⟩
        intro t ht m hm
        have htn : t + (shortest - slack) ≤ n.start := by
          cases ht
          simpa [le_sub_iff_add_le'] using hfar
        rcases List.mem_cons.mp hm with rfl | hm
        · exact htn
        · have := hnext m hm
          have := hl t ht n (by simp)
          rw [Spaced] at *
          linarith

/-! ### Durations -/

theorem yield_shortens (p : Note Rat × Option (Note Rat)) (h : shortest ≤ p.1.duration) :
    Shortens p.1 (yield p) := by
  rw [yield]
  split
  · exact .refl _
  · rename_i next _
    split
    · rename_i hreach
      apply Shortens.of_duration
      rw [Exact.greater_eq_max]
      rcases h.eq_or_lt with heq | hlt
      · left
        rw [← heq, max_eq_left]
        simp only [finish_eq, gap_eq, shortest_eq] at *
        linarith
      · refine Or.inr ⟨le_max_left _ _, max_lt hlt ?_⟩
        simp only [finish_eq, gap_eq] at *
        linarith
    · exact .refl _

theorem yield_finish_le {n next : Note Rat} (h : Spaced n next) :
    (yield (n, some next)).finish ≤ next.start + slack := by
  rw [yield]
  simp only
  split
  · simp only [Spaced, finish_eq, Exact.greater_eq_max, shortest_eq, slack_eq, gap_eq] at *
    rcases max_cases (1 / 16 : Rat) (next.start - n.start - 1 / 16) with ⟨hm, -⟩ | ⟨hm, -⟩ <;>
      rw [hm] <;> linarith
  · rename_i hreach
    simp only [slack_eq]
    linarith

theorem followed_shortens (notes : List (Note Rat)) (h : ∀ n ∈ notes, shortest ≤ n.duration) :
    List.Forall₂ Shortens notes ((followed notes).map yield) := by
  induction notes with
  | nil => exact .nil
  | cons n notes ih =>
      exact .cons (yield_shortens (n, notes.head?) (h n (by simp))) (ih fun m hm => h m (by simp [hm]))

theorem followed_apart (notes : List (Note Rat)) (h : ∀ n ∈ notes, shortest ≤ n.duration)
    (hs : notes.Pairwise Spaced) : ((followed notes).map yield).Pairwise Apart := by
  induction notes with
  | nil => exact .nil
  | cons n notes ih =>
      obtain ⟨hn, hs⟩ := List.pairwise_cons.mp hs
      have hrest : ∀ m ∈ notes, shortest ≤ m.duration := fun m hm => h m (by simp [hm])
      rw [followed, List.map_cons]
      refine List.pairwise_cons.mpr ⟨?_, ih hrest hs⟩
      intro b hb
      obtain ⟨m, hm, hmb⟩ := (Trims.shorten (followed_shortens notes hrest)).exists_mem b hb
      left
      cases notes with
      | nil => simp at hm
      | cons next rest =>
          refine (yield_finish_le (hn next (by simp))).trans ?_
          rw [hmb.start_eq]
          rcases List.mem_cons.mp hm with rfl | hm
          · exact le_rfl
          · have := (List.pairwise_cons.mp hs).1 m hm
            simp only [Spaced, shortest_eq, slack_eq] at *
            linarith

/-! ### The monophonic form -/

theorem monophonic_trims (notes : List (Note Rat)) (h : ∀ n ∈ notes, shortest ≤ n.duration) :
    Trims notes (monophonic notes).notes := by
  have hkept : Trims notes (apart none (sortByPitch notes)) :=
    .trans (.perm (sortByPitch_perm notes).symm) (.drop (apart_sublist _ _))
  exact .trans hkept (.shorten (followed_shortens _ (hkept.shortest_le h)))

theorem monophonic_apart (notes : List (Note Rat)) (h : ∀ n ∈ notes, shortest ≤ n.duration) :
    (monophonic notes).notes.Pairwise Apart := by
  have hsub := (apart_sublist none (sortByPitch notes)).subset
  apply followed_apart
  · exact fun n hn => h n ((sortByPitch_perm notes).mem_iff.mp (hsub hn))
  · exact (apart_spaced none _ (sortByPitch_sorted notes) (by simp)).2

end MusicPart.Note
