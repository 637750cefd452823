import MusicPart.Proofs.Shortening

/-!
# Separate notes

Grouping loses no note. Within a group the onsets that stay differ, and each note cut for the next
one is over a gap before it begins or is as short as a note can be.
-/

namespace MusicPart.Note

/-! ### Groups -/

theorem groupsBy_flatten_perm {α : Type} [Quantity α] (same : Note α → Note α → Bool)
    (notes : List (Note α)) :
    (groupsBy same notes).flatten.Perm notes := by
  fun_induction groupsBy same notes with
  | case1 => exact .nil
  | case2 n notes ih =>
      rw [List.flatten_cons, List.cons_append]
      refine .cons n ?_
      exact (ih.append_left _).trans (List.filter_append_perm (same n) notes)

/-- Notes of different groups share nothing, if sharing with one note makes two notes share. -/
theorem groupsBy_pairwise {same : Note Rat → Note Rat → Bool}
    (htrans : ∀ {n a b}, (a = n ∨ same n a) → same a b → same n b) (notes : List (Note Rat)) :
    (groupsBy same notes).Pairwise (fun g h => ∀ a ∈ g, ∀ b ∈ h, same a b = false) := by
  fun_induction groupsBy same notes with
  | case1 => exact .nil
  | case2 n notes ih =>
      refine List.pairwise_cons.mpr ⟨?_, ih⟩
      intro h hh a ha b hb
      have hb : b ∈ others same n notes :=
        (groupsBy_flatten_perm same _).mem_iff.mp (List.mem_flatten.mpr ⟨h, hh, hb⟩)
      have hnb : same n b = false := by simpa using (List.mem_filter.mp hb).2
      have ha : a = n ∨ same n a := by
        rcases List.mem_cons.mp ha with ha | ha
        · exact Or.inl ha
        · exact Or.inr (List.mem_filter.mp ha).2
      by_contra hab
      rw [htrans ha (by simpa using hab)] at hnb
      exact Bool.noConfusion hnb

section Keys

variable {α : Type}

/-- Notes share a value of their own, so that sharing divides them into classes. -/
structure Equates (same : Note α → Note α → Bool) : Prop where
  refl (a : Note α) : same a a = true
  congr {a b : Note α} : same a b = true → same a = same b

theorem equates_sharesChannel : Equates (sharesChannel (α := α)) where
  refl a := beq_self_eq_true a.channel
  congr {a b} h := by
    funext n
    rw [sharesChannel, sharesChannel, eq_of_beq h]

theorem equates_sharesKey : Equates (sharesKey (α := α)) where
  refl a := by simp [sharesKey]
  congr {a b} h := by
    funext n
    simp only [sharesKey, Bool.and_eq_true, beq_iff_eq] at h
    rw [sharesKey, sharesKey, h.1, h.2]

namespace Equates

variable {same : Note α → Note α → Bool} (h : Equates same)

include h

theorem symm {a b : Note α} (hab : same a b = true) : same b a = true := by
  rw [← h.congr hab]
  exact h.refl a

/-- A group holds all the notes that share with one of them. -/
theorem exists_filter_of_mem_groupsBy {notes g : List (Note α)} (hg : g ∈ groupsBy same notes) :
    ∃ n ∈ notes, g = notes.filter (same n) := by
  fun_induction groupsBy same notes with
  | case1 => exact absurd hg List.not_mem_nil
  | case2 n notes ih =>
      rcases List.mem_cons.mp hg with rfl | hg
      · exact ⟨n, List.mem_cons_self, (List.filter_cons_of_pos (h.refl n)).symm⟩
      · obtain ⟨m, hm, rfl⟩ := ih hg
        obtain ⟨hmem, hnm⟩ := List.mem_filter.mp hm
        rw [Bool.not_eq_true'] at hnm
        have hmn : ¬same m n = true := fun hmn => Bool.false_ne_true (hnm.symm.trans (h.symm hmn))
        refine ⟨m, List.mem_cons_of_mem n hmem, ?_⟩
        rw [List.filter_cons_of_neg hmn, others, List.filter_filter]
        refine List.filter_congr fun k _ => ?_
        -- What shares with the second note does not share with the first one.
        by_cases hmk : same m k = true
        · have hnk : same n k = false := by
            rw [← Bool.not_eq_true]
            intro hnk
            rw [h.congr hmk] at hmn
            exact hmn (h.symm hnk)
          rw [hmk, hnk]
          rfl
        · rw [Bool.not_eq_true] at hmk
          rw [hmk, Bool.false_and]

/-- What is made of the notes that share with one note, if it is made of each group by itself. -/
theorem filter_flatMap_groupsBy {f : List (Note α) → List (Note α)} (hnil : f [] = [])
    (hmem : ∀ {g n}, n ∈ f g → ∃ m ∈ g, same m n = true) (a : Note α) (notes : List (Note α)) :
    ((groupsBy same notes).flatMap f).filter (same a) = f (notes.filter (same a)) := by
  fun_induction groupsBy same notes with
  | case1 => simp [hnil]
  | case2 n notes ih =>
      have hgroup : n :: notes.filter (same n) = (n :: notes).filter (same n) :=
        (List.filter_cons_of_pos (h.refl n)).symm
      have hfirst {m : Note α} (hm : m ∈ f (n :: notes.filter (same n))) : same n m = true := by
        rw [hgroup] at hm
        obtain ⟨k, hk, hkm⟩ := hmem hm
        rw [h.congr (List.mem_filter.mp hk).2]
        exact hkm
      rw [List.flatMap_cons, List.filter_append, ih, others, List.filter_filter]
      by_cases ha : same a n = true
      · -- The first group holds all the notes that share with the one, and the others none.
        have hrest : (notes.filter fun m => same a m && !same n m) = [] := by
          simp [h.congr ha]
        rw [hrest, hnil, List.append_nil, h.congr ha, ← hgroup]
        exact List.filter_eq_self.mpr fun m hm => hfirst hm
      · have hapart {m : Note α} (ham : same a m = true) : ¬same n m = true := by
          intro hnm
          apply ha
          rw [h.congr ham]
          exact h.symm hnm
        have hnone : (f (n :: notes.filter (same n))).filter (same a) = [] :=
          List.filter_eq_nil_iff.mpr fun m hm ham => hapart ham (hfirst hm)
        have hrest : (notes.filter fun m => same a m && !same n m) = notes.filter (same a) := by
          refine List.filter_congr fun m _ => ?_
          by_cases ham : same a m = true
          · simp [ham, hapart ham]
          · simp [ham]
        rw [hnone, hrest, List.nil_append, List.filter_cons_of_neg ha]

end Equates

end Keys

theorem sharesKey_iff (a b : Note Rat) :
    sharesKey a b = true ↔ a.channel = b.channel ∧ a.pitch = b.pitch := by
  simp [sharesKey]

theorem sonorities_flatten {α : Type} [Quantity α] (notes : List (Note α)) :
    (sonorities notes).flatten = notes := by
  fun_induction sonorities notes with
  | case1 => rfl
  | case2 n notes near ih =>
      have hnear : near = notes.take near.length :=
        List.prefix_iff_eq_take.mp (List.takeWhile_prefix _)
      rw [List.flatten_cons, ih, List.cons_append]
      nth_rewrite 1 [hnear]
      rw [List.take_append_drop]

/-! ### Cutting -/

theorem cut?_eq_some {limit : Rat} {n m : Note Rat} (h : cut? limit n = some m) :
    m = { n with duration := max shortest (limit - n.start) } ∧
      max shortest (limit - n.start) < n.duration := by
  rw [cut?] at h
  simp only [Exact.greater_eq_max] at h
  split at h
  · exact nomatch h
  · rename_i hno
    simp only [Bool.or_eq_true, decide_eq_true_eq, not_or, not_le] at hno
    exact ⟨(Option.some.inj h).symm, hno.2⟩

theorem cut?_eq_none {limit : Rat} {n : Note Rat} (h : cut? limit n = none) :
    n.finish ≤ limit + slack ∨ n.duration ≤ shortest := by
  rw [cut?] at h
  simp only [Exact.greater_eq_max] at h
  split at h
  · rename_i hno
    simp only [Bool.or_eq_true, decide_eq_true_eq] at hno
    rcases hno with hno | hno
    · exact Or.inl hno
    · rcases le_max_iff.mp hno with hno | hno
      · exact Or.inr hno
      · left
        simp only [finish_eq, slack_eq]
        linarith
  · exact nomatch h

theorem cutBefore_shortens (next : Option (Note Rat)) (n : Note Rat) :
    Shortens n (cutBefore next n).1 := by
  rw [cutBefore]
  split
  · rename_i m hcut
    obtain ⟨k, -, hcut⟩ := Option.bind_eq_some_iff.mp hcut
    obtain ⟨rfl, hlt⟩ := cut?_eq_some hcut
    exact .of_duration (Or.inr ⟨le_max_left _ _, hlt⟩)
  · exact .refl n

/-- A note that begins before another one is over a gap before it, or as short as can be. -/
def Clears (a b : Note Rat) : Prop :=
  a.start < b.start → a.finish ≤ b.start - gap + slack ∨ a.duration ≤ shortest

theorem cutBefore_clears (next n : Note Rat) : Clears (cutBefore (some next) n).1 next := by
  intro _
  rw [cutBefore]
  simp only [Option.bind_some]
  split
  · rename_i m hcut
    obtain ⟨rfl, -⟩ := cut?_eq_some hcut
    rcases max_cases (shortest : Rat) (next.start - gap - n.start) with ⟨hm, -⟩ | ⟨hm, -⟩
    · exact Or.inr hm.le
    · left
      change n.start + max shortest (next.start - gap - n.start) ≤ next.start - gap + slack
      rw [hm, slack_eq]
      linarith
  · rename_i hcut
    exact cut?_eq_none hcut

section Each

variable {α : Type} [Quantity α] {S : Note α → Note α → Prop}
  (hS : ∀ next n, S n (cutBefore next n).1)

include hS

theorem forall₂_cutEach (notes : List (Note α)) :
    List.Forall₂ S notes ((cutEach notes).map (·.1)) := by
  induction notes with
  | nil => exact .nil
  | cons n notes ih => exact .cons (hS notes.head? n) ih

theorem forall₂_cutSonorities (groups : List (List (Note α))) :
    List.Forall₂ S groups.flatten ((cutSonorities groups).map (·.1)) := by
  induction groups with
  | nil => exact .nil
  | cons g groups ih =>
      rw [List.flatten_cons, cutSonorities, List.map_append, List.map_map]
      refine List.rel_append ?_ ih
      rw [List.forall₂_map_right_iff, List.forall₂_same]
      exact fun n _ => hS _ n

end Each

theorem cutEach_shortens (notes : List (Note Rat)) :
    List.Forall₂ Shortens notes ((cutEach notes).map (·.1)) := forall₂_cutEach cutBefore_shortens _

theorem cutSonorities_shortens (groups : List (List (Note Rat))) :
    List.Forall₂ Shortens groups.flatten ((cutSonorities groups).map (·.1)) :=
  forall₂_cutSonorities cutBefore_shortens _

/-! ### One onset each -/

theorem firstOfEach_sublist {α : Type} [Quantity α] (last : Option α) (notes : List (Note α)) :
    (firstOfEach last notes).Sublist notes := by
  induction notes generalizing last with
  | nil => exact .slnil
  | cons n notes ih =>
      rw [firstOfEach]
      split
      · exact (ih last).cons n
      · exact (ih _).cons_cons n

theorem firstOfEach_increases (last : Option Rat) (notes : List (Note Rat))
    (hs : notes.Pairwise (fun a b => a.start ≤ b.start)) (hl : ∀ t ∈ last, ∀ n ∈ notes, t ≤ n.start) :
    (∀ t ∈ last, ∀ n ∈ firstOfEach last notes, t + slack ≤ n.start) ∧
      (firstOfEach last notes).Pairwise (fun a b => a.start + slack ≤ b.start) := by
  induction notes generalizing last with
  | nil => simp [firstOfEach]
  | cons n notes ih =>
      obtain ⟨hn, hs⟩ := List.pairwise_cons.mp hs
      rw [firstOfEach]
      split
      · exact ih last hs fun t ht m hm => hl t ht m (by simp [hm])
      · rename_i hfar
        obtain ⟨hnext, hpair⟩ := ih (some n.start) hs (by simpa using hn)
        refine ⟨?_, List.pairwise_cons.mpr ⟨fun m hm => hnext _ rfl m hm, hpair⟩⟩
        intro t ht m hm
        have hle := hl t ht n (by simp)
        have htn : t + slack ≤ n.start := by
          cases ht
          have hfar : slack ≤ |n.start - t| := by simpa using hfar
          rw [abs_of_nonneg (sub_nonneg.mpr hle)] at hfar
          linarith
        rcases List.mem_cons.mp hm with rfl | hm
        · exact htn
        · have := hnext _ rfl m hm
          simp only [slack_eq] at *
          linarith

theorem cutEach_clears (notes : List (Note Rat))
    (hs : notes.Pairwise (fun a b => a.start + slack ≤ b.start)) :
    ((cutEach notes).map (·.1)).Pairwise (fun a b => a.start < b.start ∧ Clears a b) := by
  induction notes with
  | nil => exact .nil
  | cons n notes ih =>
      obtain ⟨hn, hs⟩ := List.pairwise_cons.mp hs
      rw [cutEach, List.map_cons]
      refine List.pairwise_cons.mpr ⟨?_, ih hs⟩
      intro b hb
      obtain ⟨m, hm, hmb⟩ := (Trims.shorten (cutEach_shortens notes)).exists_mem b hb
      have hnm := hn m hm
      have hlt : (cutBefore notes.head? n).1.start < b.start := by
        rw [(cutBefore_shortens _ n).start_eq, hmb.start_eq]
        simp only [slack_eq] at hnm
        linarith
      refine ⟨hlt, fun _ => ?_⟩
      cases notes with
      | nil => simp at hm
      | cons next rest =>
          have hnext : next.start ≤ b.start := by
            rw [hmb.start_eq]
            rcases List.mem_cons.mp hm with rfl | hm
            · exact le_rfl
            · have := (List.pairwise_cons.mp hs).1 m hm
              simp only [slack_eq] at this
              linarith
          have hbefore : (cutBefore (some next) n).1.start < next.start := by
            have := hn next (by simp)
            rw [(cutBefore_shortens _ n).start_eq]
            simp only [slack_eq] at this
            linarith
          rcases cutBefore_clears next n hbefore with h | h
          · exact Or.inl (h.trans (by linarith))
          · exact Or.inr h

/-! ### The separation of unisons and of chords -/

theorem separateUnisons_trims (notes : List (Note Rat)) :
    Trims notes (separateUnisons notes).notes := by
  have hgroup : ∀ g ∈ groupsBy sharesKey notes,
      Trims (id g) ((cutEach (firstOfEach none (sortByStart g))).map (·.1)) := fun g _ =>
    .trans (.perm (sortByStart_perm g).symm)
      (.trans (.drop (firstOfEach_sublist _ _)) (.shorten (cutEach_shortens _)))
  have hcuts := Trims.flatMap _ hgroup
  rw [List.flatMap_id] at hcuts
  refine .trans (.perm (groupsBy_flatten_perm sharesKey notes).symm) (.trans hcuts (.perm ?_))
  refine .trans (.of_eq ?_) (sort_perm _).symm
  rw [List.flatMap_map, List.map_flatMap]

theorem separateChords_trims (notes : List (Note Rat)) :
    Trims notes (separateChords notes).notes := by
  have hgroup : ∀ g ∈ groupsBy sharesChannel notes,
      Trims (id g) ((cutSonorities (sonorities (sortByStart g))).map (·.1)) := fun g _ => by
    have h := cutSonorities_shortens (sonorities (sortByStart g))
    rw [sonorities_flatten] at h
    exact .trans (.perm (sortByStart_perm g).symm) (.shorten h)
  have hcuts := Trims.flatMap _ hgroup
  rw [List.flatMap_id] at hcuts
  refine .trans (.perm (groupsBy_flatten_perm sharesChannel notes).symm) (.trans hcuts (.perm ?_))
  refine .trans (.of_eq ?_) (sort_perm _).symm
  rw [List.map_flatMap]

theorem separate_trims (notes : List (Note Rat)) : Trims notes (separate notes).notes :=
  .trans (separateUnisons_trims notes) (separateChords_trims _)

/-! ### Unisons -/

/-- What separation makes of two notes of one channel and pitch. -/
def Alternate (a b : Note Rat) : Prop :=
  a.channel = b.channel → a.pitch = b.pitch → a.start ≠ b.start ∧ Clears a b ∧ Clears b a

theorem Clears.shorten {a b a' b' : Note Rat} (h : Clears a b) (ha : Shortens a a')
    (hb : Shortens b b') : Clears a' b' := by
  intro hlt
  rw [ha.start_eq, hb.start_eq] at hlt
  rw [hb.start_eq]
  rcases h hlt with h | h
  · exact Or.inl (ha.finish_le.trans h)
  · exact Or.inr (ha.duration_le.trans h)

theorem lasting_alternate : Lasting Alternate where
  symm h hc hp := by
    obtain ⟨hne, hab, hba⟩ := h hc.symm hp.symm
    exact ⟨hne.symm, hba, hab⟩
  shorten := by
    intro a b a' h hs hc hp
    obtain ⟨hne, hab, hba⟩ := h (hs.channel_eq ▸ hc) (hs.pitch_eq ▸ hp)
    exact ⟨hs.start_eq ▸ hne, hab.shorten hs (.refl b), hba.shorten (.refl b) hs⟩

theorem separateUnisons_alternate (notes : List (Note Rat)) :
    (separateUnisons notes).notes.Pairwise Alternate := by
  refine (sort_perm _).symm.pairwise ?_ lasting_alternate.symm
  rw [List.flatMap_map, List.map_flatMap, List.pairwise_flatMap]
  refine ⟨?_, ?_⟩
  · intro g _
    have hs := (firstOfEach_increases none _ (sortByStart_sorted g) (by simp)).2
    refine (cutEach_clears _ hs).imp fun {a b} hab _ _ => ?_
    exact ⟨hab.1.ne, hab.2, fun hba => absurd hba hab.1.not_gt⟩
  · have htrans : ∀ {n a b : Note Rat}, (a = n ∨ sharesKey n a) → sharesKey a b → sharesKey n b := by
      intro n a b hna hab
      simp only [sharesKey_iff] at *
      rcases hna with rfl | hna
      · exact hab
      · exact ⟨hna.1.trans hab.1, hna.2.trans hab.2⟩
    have hmem : ∀ (g : List (Note Rat)), ∀ n ∈ (cutEach (firstOfEach none (sortByStart g))).map (·.1),
        ∃ m ∈ g, Shortens m n := fun g =>
      Trims.exists_mem (.trans (.perm (sortByStart_perm g).symm)
        (.trans (.drop (firstOfEach_sublist _ _)) (.shorten (cutEach_shortens _))))
    refine (groupsBy_pairwise htrans notes).imp fun {g h} hgh a ha b hb hc hp => ?_
    obtain ⟨m, hm, hma⟩ := hmem g a ha
    obtain ⟨k, hk, hkb⟩ := hmem h b hb
    have hno := hgh m hm k hk
    rw [hma.channel_eq, hkb.channel_eq] at hc
    rw [hma.pitch_eq, hkb.pitch_eq] at hp
    rw [(sharesKey_iff m k).mpr ⟨hc, hp⟩] at hno
    exact Bool.noConfusion hno

theorem separate_alternate (notes : List (Note Rat)) :
    (separate notes).notes.Pairwise Alternate :=
  (separateChords_trims _).pairwise lasting_alternate (separateUnisons_alternate notes)

end MusicPart.Note
