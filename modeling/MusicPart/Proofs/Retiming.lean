import MusicPart.Proofs.Monophony
import MusicPart.Proofs.Separation

/-!
# Retiming notes

Monophony, the removal of overlaps and phrasing give notes other onsets and durations, leave some
out and put pieces in the place of others. The rest of a note stays, in any arithmetic of times.
-/

namespace MusicPart.Note

variable {α : Type}

/-- The second note is the first one at another time. -/
def Retimes (a b : Note α) : Prop := b = { a with start := b.start, duration := b.duration }

/-- Every note of the second list is one of the first list at another time. -/
def DrawnFrom (notes others : List (Note α)) : Prop := ∀ n ∈ others, ∃ m ∈ notes, Retimes m n

theorem DrawnFrom.trans {xs ys zs : List (Note α)} (hxy : DrawnFrom xs ys)
    (hyz : DrawnFrom ys zs) : DrawnFrom xs zs := by
  intro n hn
  obtain ⟨m, hm, hmn⟩ := hyz n hn
  obtain ⟨l, hl, hlm⟩ := hxy m hm
  exact ⟨l, hl, by rw [Retimes, hmn, hlm]⟩

theorem DrawnFrom.refl (xs : List (Note α)) : DrawnFrom xs xs := fun n hn => ⟨n, hn, rfl⟩

theorem DrawnFrom.of_subset {xs ys : List (Note α)} (h : ys ⊆ xs) : DrawnFrom xs ys :=
  fun n hn => ⟨n, h hn, rfl⟩

theorem drawnFrom_map (notes : List (Note α)) {f : Note α → Note α} (h : ∀ n, Retimes n (f n)) :
    DrawnFrom notes (notes.map f) := by
  intro n hn
  obtain ⟨m, hm, rfl⟩ := List.mem_map.mp hn
  exact ⟨m, hm, h m⟩

/-! ### One note at a time -/

theorem map_followed (notes : List (Note α)) : (followed notes).map (·.1) = notes := by
  induction notes with
  | nil => rfl
  | cons n notes ih => rw [followed, List.map_cons, ih]

variable [Quantity α]

theorem retimes_yield (p : Note α × Option (Note α)) : Retimes p.1 (yield p) := by
  rw [yield]
  split
  · exact rfl
  · split <;> exact rfl

theorem monophonic_drawnFrom (notes : List (Note α)) :
    DrawnFrom notes (monophonic notes).notes := by
  have hkept : DrawnFrom notes (apart none (sortByPitch notes)) :=
    .of_subset fun n hn =>
      (sortByPitch_perm notes).mem_iff.mp ((apart_sublist none _).subset hn)
  refine hkept.trans fun n hn => ?_
  obtain ⟨p, hp, rfl⟩ := List.mem_map.mp hn
  have hmem := List.mem_map_of_mem (f := (·.1)) hp
  rw [map_followed] at hmem
  exact ⟨p.1, hmem, retimes_yield p⟩

/-! ### Overlaps -/

theorem retimes_cutBefore (next : Option (Note α)) (n : Note α) :
    Retimes n (cutBefore next n).1 := by
  rw [cutBefore]
  split
  · rename_i m hcut
    obtain ⟨k, -, hcut⟩ := Option.bind_eq_some_iff.mp hcut
    rw [cut?] at hcut
    split at hcut
    · cases hcut
    · cases hcut
      exact rfl
  · exact rfl

theorem cutEach_drawnFrom (notes : List (Note α)) :
    DrawnFrom notes ((cutEach notes).map (·.1)) := by
  induction notes with
  | nil => exact .refl _
  | cons n notes ih =>
      intro m hm
      rcases List.mem_cons.mp hm with rfl | hm
      · exact ⟨n, List.mem_cons_self, retimes_cutBefore notes.head? n⟩
      · obtain ⟨l, hl, hlm⟩ := ih m hm
        exact ⟨l, List.mem_cons_of_mem n hl, hlm⟩

theorem cutSonorities_drawnFrom (groups : List (List (Note α))) :
    DrawnFrom groups.flatten ((cutSonorities groups).map (·.1)) := by
  induction groups with
  | nil => exact .refl _
  | cons g groups ih =>
      intro m hm
      rw [cutSonorities, List.map_append, List.map_map] at hm
      rcases List.mem_append.mp hm with hm | hm
      · obtain ⟨n, hn, rfl⟩ := List.mem_map.mp hm
        exact ⟨n, List.mem_append_left _ hn, retimes_cutBefore _ n⟩
      · obtain ⟨l, hl, hlm⟩ := ih m hm
        exact ⟨l, List.mem_append_right g hl, hlm⟩

/-- Cutting the notes of each group cuts all notes. -/
theorem drawnFrom_groupsBy (same : Note α → Note α → Bool) (notes : List (Note α))
    {f : List (Note α) → List (Note α × Bool)} (h : ∀ g, DrawnFrom g ((f g).map (·.1))) :
    DrawnFrom notes (sort (((groupsBy same notes).flatMap f).map (·.1))) := by
  intro n hn
  rw [(sort_perm _).mem_iff, List.map_flatMap] at hn
  obtain ⟨g, hg, hn⟩ := List.mem_flatMap.mp hn
  obtain ⟨m, hm, hmn⟩ := h g n hn
  exact ⟨m, (groupsBy_flatten_perm same notes).mem_iff.mp (List.mem_flatten_of_mem hg hm), hmn⟩

theorem separate_drawnFrom (notes : List (Note α)) : DrawnFrom notes (separate notes).notes := by
  have hunisons (g : List (Note α)) :
      DrawnFrom g ((cutEach (firstOfEach none (sortByStart g))).map (·.1)) := by
    refine .trans (.of_subset fun n hn => ?_) (cutEach_drawnFrom _)
    exact (sortByStart_perm g).mem_iff.mp ((firstOfEach_sublist none _).subset hn)
  have hchords (g : List (Note α)) :
      DrawnFrom g ((cutSonorities (sonorities (sortByStart g))).map (·.1)) := by
    refine .trans (.of_subset fun n hn => ?_) (cutSonorities_drawnFrom _)
    rw [sonorities_flatten] at hn
    exact (sortByStart_perm g).mem_iff.mp hn
  refine .trans ?_ (drawnFrom_groupsBy sharesChannel _ hchords)
  rw [separateUnisons, List.flatMap_map]
  exact drawnFrom_groupsBy sharesKey notes hunisons

/-! ### Phrasing -/

theorem retimes_of_mem_split {segment gap : α} {maxPieces : Int} {n p : Note α}
    (h : p ∈ split segment gap maxPieces n) : Retimes n p := by
  rw [split] at h
  split at h
  · rw [List.mem_singleton.mp h]
    exact rfl
  · dsimp only at h
    split at h
    · rw [List.mem_singleton.mp h]
      exact rfl
    · obtain ⟨i, -, rfl⟩ := List.mem_map.mp h
      exact rfl

theorem retimes_capped (a : Articulations α) (general : Text) (n : Note α) :
    Retimes n ((capped? a general n).getD n) := by
  cases hcapped : capped? a general n with
  | none => exact rfl
  | some m =>
      obtain ⟨-, hm⟩ := Option.ite_none_right_eq_some.mp hcapped
      cases hm
      exact rfl

theorem split_drawnFrom (segment gap : α) (maxPieces : Int) (notes : List (Note α)) :
    DrawnFrom notes (notes.map (split segment gap maxPieces)).flatten := by
  intro p hp
  obtain ⟨n, hn, hp⟩ := List.mem_flatMap.mp (List.flatMap_def ▸ hp)
  exact ⟨n, hn, retimes_of_mem_split hp⟩

theorem phrase_drawnFrom (i : Instrument α) (m : Meter) (general : Text) (arranged : Bool)
    (notes : List (Note α)) : DrawnFrom notes (phrase i m general arranged notes).notes := by
  have hcapped : DrawnFrom notes (capShort i.articulations general notes).notes :=
    drawnFrom_map notes (retimes_capped i.articulations general)
  refine hcapped.trans ?_
  rw [phrase]
  dsimp only
  split
  · rw [splitBreaths]
    split
    · exact .refl _
    · exact split_drawnFrom _ _ _ _
  · split
    · rw [splitBows]
      dsimp only
      split
      · exact .refl _
      · exact .trans (split_drawnFrom _ _ _ _) (.of_subset (sortByPitch_perm _).subset)
    · exact .refl _

end MusicPart.Note
