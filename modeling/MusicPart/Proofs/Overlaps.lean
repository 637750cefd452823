import MusicPart.Proofs.Routing
import MusicPart.Proofs.Separation

/-!
# Overlaps

Separating notes sorts them, shortens some and leaves out those that begin together with another
note of their channel and pitch. Afterwards a note is over a gap before a later one of its channel,
or is as short as a note can be, if the two share their pitch or are too far apart to sound together.
-/

namespace MusicPart.Note

/-! ### Notes that are left out -/

section Counting

variable {α : Type} [Quantity α]

theorem firstOfEach_append_repeats_perm (last : Option α) (notes : List (Note α)) :
    (firstOfEach last notes ++ repeats last notes).Perm notes := by
  induction notes generalizing last with
  | nil => exact .nil
  | cons n notes ih =>
      rw [firstOfEach, repeats]
      split
      · exact List.perm_middle.trans ((ih last).cons n)
      · exact (ih _).cons n

/-- Every note is one that separation keeps or one that repeats another. -/
theorem keepers_append_repeats_perm (notes : List (Note α)) :
    ((groupsBy sharesKey notes).flatMap (fun g => firstOfEach none (sortByStart g)) ++
      (groupsBy sharesKey notes).flatMap (fun g => repeats none (sortByStart g))).Perm notes := by
  refine (List.flatMap_append_perm _ _ _).trans ?_
  have hgroups := List.Perm.flatMap_left (g := id) (groupsBy sharesKey notes) fun g _ =>
    (firstOfEach_append_repeats_perm none (sortByStart g)).trans (sortByStart_perm g)
  rw [List.flatMap_id] at hgroups
  exact hgroups.trans (groupsBy_flatten_perm sharesKey notes)

end Counting

theorem repeats_near (last : Option Rat) (notes : List (Note Rat)) :
    ∀ m ∈ repeats last notes, (∃ t ∈ last, |m.start - t| < slack) ∨
      ∃ k ∈ firstOfEach last notes, |m.start - k.start| < slack := by
  induction notes generalizing last with
  | nil => simp [repeats]
  | cons n notes ih =>
      intro m hm
      rw [repeats] at hm
      rw [firstOfEach]
      split at hm
      · rename_i hnear
        rw [if_pos hnear]
        rcases List.mem_cons.mp hm with rfl | hm
        · left
          simpa [Option.any_eq_true] using hnear
        · exact ih last m hm
      · rename_i hfar
        rw [if_neg hfar]
        right
        rcases ih (some n.start) m hm with ⟨t, ht, hmt⟩ | ⟨k, hk, hmk⟩
        · cases ht
          exact ⟨n, List.mem_cons_self, hmt⟩
        · exact ⟨k, List.mem_cons_of_mem n hk, hmk⟩

theorem exists_of_mem_groupsBy {same : Note Rat → Note Rat → Bool} {notes g : List (Note Rat)}
    (hg : g ∈ groupsBy same notes) : ∃ n, ∀ a ∈ g, a = n ∨ same n a := by
  fun_induction groupsBy same notes with
  | case1 => exact absurd hg List.not_mem_nil
  | case2 n notes ih =>
      rcases List.mem_cons.mp hg with rfl | hg
      · refine ⟨n, fun a ha => ?_⟩
        rcases List.mem_cons.mp ha with rfl | ha
        · exact Or.inl rfl
        · exact Or.inr (List.mem_filter.mp ha).2
      · exact ih hg

/-- The notes of one group share their channel and pitch. -/
theorem sharesKey_of_mem_group {notes g : List (Note Rat)} (hg : g ∈ groupsBy sharesKey notes)
    {a b : Note Rat} (ha : a ∈ g) (hb : b ∈ g) : a.channel = b.channel ∧ a.pitch = b.pitch := by
  obtain ⟨n, hn⟩ := exists_of_mem_groupsBy hg
  have hkey : ∀ c ∈ g, c.channel = n.channel ∧ c.pitch = n.pitch := by
    intro c hc
    rcases hn c hc with rfl | hnc
    · exact ⟨rfl, rfl⟩
    · obtain ⟨hch, hp⟩ := (sharesKey_iff n c).mp hnc
      exact ⟨hch.symm, hp.symm⟩
  exact ⟨(hkey a ha).1.trans (hkey b hb).1.symm, (hkey a ha).2.trans (hkey b hb).2.symm⟩

/-- A note that repeats another begins with a note of its channel and pitch that is kept. -/
theorem exists_keeper {notes g : List (Note Rat)} (hg : g ∈ groupsBy sharesKey notes) {m : Note Rat}
    (hm : m ∈ repeats none (sortByStart g)) : ∃ k ∈ firstOfEach none (sortByStart g),
      k.channel = m.channel ∧ k.pitch = m.pitch ∧ |m.start - k.start| < slack := by
  rcases repeats_near none _ m hm with ⟨t, ht, -⟩ | ⟨k, hk, hmk⟩
  · exact absurd ht (by simp)
  · have hsub := firstOfEach_append_repeats_perm none (sortByStart g)
    have hmem : ∀ n, n ∈ firstOfEach none (sortByStart g) ∨ n ∈ repeats none (sortByStart g) →
        n ∈ g := fun n hn =>
      (sortByStart_perm g).mem_iff.mp (hsub.mem_iff.mp (List.mem_append.mpr hn))
    obtain ⟨hc, hp⟩ := sharesKey_of_mem_group hg (hmem k (Or.inl hk)) (hmem m (Or.inr hm))
    exact ⟨k, hk, hc, hp, hmk⟩

/-! ### Notes that are too far apart to sound together -/

/-- A note is over a gap before a later one of its channel that does not sound together with it, or
is as short as can be. -/
def Releases (a b : Note Rat) : Prop :=
  a.channel = b.channel → together < b.start - a.start → Clears a b

theorem Releases.of_near {a b : Note Rat} (h : b.start ≤ a.start + together) : Releases a b := by
  intro _ hfar
  linarith

theorem Releases.of_start_le {a b : Note Rat} (h : b.start ≤ a.start) : Releases a b :=
  fun _ _ hlt => absurd hlt h.not_gt

theorem Releases.shorten {a b a' b' : Note Rat} (h : Releases a b) (ha : Shortens a a')
    (hb : Shortens b b') : Releases a' b' := by
  intro hc hfar
  rw [ha.channel_eq, hb.channel_eq] at hc
  rw [ha.start_eq, hb.start_eq] at hfar
  exact (h hc hfar).shorten ha hb

theorem drop_length_takeWhile {β : Type} (p : β → Bool) (xs : List β) :
    xs.drop (xs.takeWhile p).length = xs.dropWhile p := by
  calc xs.drop (xs.takeWhile p).length
      = (xs.takeWhile p ++ xs.dropWhile p).drop (xs.takeWhile p).length := by
        rw [List.takeWhile_append_dropWhile]
    _ = xs.dropWhile p := List.drop_left

/-- The first note after a sonority begins too late to sound together with the first one in it. -/
theorem together_lt_of_head? {α : Type} [Quantity α] {n next : Note α} {notes : List (Note α)}
    (h : (notes.drop (notes.takeWhile fun m =>
      !decide (together < m.start - n.start)).length).head? = some next) :
    together < next.start - n.start := by
  rw [drop_length_takeWhile] at h
  have hnot := List.head?_dropWhile_not
    (fun m : Note α => !decide (together < m.start - n.start)) notes
  rw [h] at hnot
  simp only [Bool.not_eq_false', decide_eq_true_eq] at hnot
  exact hnot

theorem head?_sonorities {α : Type} [Quantity α] (notes : List (Note α)) :
    (sonorities notes).head?.bind (·.head?) = notes.head? := by
  cases notes with
  | nil => simp [sonorities]
  | cons n notes => simp [sonorities]

theorem cutSonorities_releases (notes : List (Note Rat))
    (hs : notes.Pairwise (fun a b => a.start ≤ b.start)) :
    ((cutSonorities (sonorities notes)).map (·.1)).Pairwise Releases := by
  fun_induction sonorities notes with
  | case1 => exact .nil
  | case2 n notes near ih =>
      obtain ⟨hn, hs⟩ := List.pairwise_cons.mp hs
      have hrest : (notes.drop near.length).Pairwise (fun a b => a.start ≤ b.start) :=
        hs.sublist (List.drop_sublist _ _)
      have hnear : ∀ m ∈ n :: near, n.start ≤ m.start ∧ m.start ≤ n.start + together := by
        intro m hm
        rcases List.mem_cons.mp hm with rfl | hm
        · exact ⟨le_rfl, by simp⟩
        · have hle : m.start - n.start ≤ together := by simpa using List.mem_takeWhile_imp hm
          exact ⟨hn m ((List.takeWhile_prefix _).subset hm), by linarith⟩
      rw [cutSonorities, List.map_append, List.map_map, head?_sonorities]
      refine List.pairwise_append.mpr ⟨?_, ih hrest, ?_⟩
      · -- Notes of one sonority sound together.
        refine List.pairwise_map.mpr (List.pairwise_of_forall_mem_list fun a ha b hb => ?_)
        apply Releases.of_near
        change (cutBefore _ b).1.start ≤ (cutBefore _ a).1.start + together
        rw [(cutBefore_shortens _ a).start_eq, (cutBefore_shortens _ b).start_eq]
        linarith [(hnear a ha).1, (hnear b hb).2]
      · intro a ha b hb _ _ hlt
        obtain ⟨c, hc, rfl⟩ := List.mem_map.mp ha
        have hcuts := cutSonorities_shortens (sonorities (notes.drop near.length))
        rw [sonorities_flatten] at hcuts
        obtain ⟨m, hm, hmb⟩ := exists_mem_of_forall₂ hcuts hb
        -- What comes after the sonority begins with the note that it is cut for.
        cases hnext : (notes.drop near.length).head? with
        | none =>
            rw [List.head?_eq_none_iff.mp hnext] at hm
            exact absurd hm List.not_mem_nil
        | some next =>
            have hfirst : next.start ≤ m.start := by
              obtain ⟨rest, hrest'⟩ := List.head?_eq_some_iff.mp hnext
              rw [hrest'] at hm hrest
              rcases List.mem_cons.mp hm with rfl | hm
              · exact le_rfl
              · exact (List.pairwise_cons.mp hrest).1 m hm
            have hfar := together_lt_of_head? hnext
            have hbefore : (cutBefore (some next) c).1.start < next.start := by
              rw [(cutBefore_shortens _ c).start_eq]
              linarith [(hnear c hc).2]
            rw [Function.comp_apply]
            rw [hmb.start_eq]
            rcases cutBefore_clears next c hbefore with h | h
            · exact Or.inl (h.trans (by linarith))
            · exact Or.inr h

theorem separateChords_releases (notes : List (Note Rat)) :
    (separateChords notes).notes.Pairwise (fun a b => Releases a b ∧ Releases b a) := by
  refine (sort_perm _).symm.pairwise ?_ And.symm
  rw [List.map_flatMap, List.pairwise_flatMap]
  have hgroup : ∀ g : List (Note Rat),
      List.Forall₂ Shortens (sortByStart g)
        ((cutSonorities (sonorities (sortByStart g))).map (·.1)) := by
    intro g
    have h := cutSonorities_shortens (sonorities (sortByStart g))
    rwa [sonorities_flatten] at h
  refine ⟨fun g _ => ?_, ?_⟩
  · have hsorted : ((cutSonorities (sonorities (sortByStart g))).map (·.1)).Pairwise
        (fun a b => a.start ≤ b.start) := by
      refine pairwise_of_forall₂ (hgroup g) (fun hab ha hb => ?_) (sortByStart_sorted g)
      rwa [ha.start_eq, hb.start_eq]
    refine hsorted.imp₂ (fun a b hle h => ?_) (cutSonorities_releases _ (sortByStart_sorted g))
    exact ⟨h, .of_start_le hle⟩
  · have htrans : ∀ {n a b : Note Rat}, (a = n ∨ sharesChannel n a) → sharesChannel a b →
        sharesChannel n b := by
      intro n a b hna hab
      simp only [sharesChannel, beq_iff_eq] at *
      rcases hna with rfl | hna
      · exact hab
      · exact hna.trans hab
    refine (groupsBy_pairwise htrans notes).imp fun {g h} hgh a ha b hb => ?_
    obtain ⟨m, hm, hma⟩ := exists_mem_of_forall₂ (hgroup g) ha
    obtain ⟨k, hk, hkb⟩ := exists_mem_of_forall₂ (hgroup h) hb
    have hne : a.channel ≠ b.channel := by
      have hno := hgh m ((sortByStart_perm g).mem_iff.mp hm) k ((sortByStart_perm h).mem_iff.mp hk)
      rw [hma.channel_eq, hkb.channel_eq]
      simpa [sharesChannel] using hno
    exact ⟨fun hc => absurd hc hne, fun hc => absurd hc.symm hne⟩

/-! ### Separation -/

theorem forall₂_shortens_flatMap {β : Type} {f g : β → List (Note Rat)} (bs : List β)
    (h : ∀ b ∈ bs, List.Forall₂ Shortens (f b) (g b)) :
    List.Forall₂ Shortens (bs.flatMap f) (bs.flatMap g) := by
  induction bs with
  | nil => exact .nil
  | cons b bs ih =>
      rw [List.flatMap_cons, List.flatMap_cons]
      exact List.rel_append (h b (by simp)) (ih fun c hc => h c (by simp [hc]))

theorem forall₂_shortens_trans {xs ys zs : List (Note Rat)} (h : List.Forall₂ Shortens xs ys)
    (h' : List.Forall₂ Shortens ys zs) : List.Forall₂ Shortens xs zs := by
  induction h generalizing zs with
  | nil => exact h'
  | cons hab _ ih =>
      cases h' with
      | cons hbc h' => exact .cons (hab.trans hbc) (ih h')

/-- The separated notes are some of the notes, each as it was or shorter, and of those that are
missing each repeats one of them. -/
def Keeps (notes kept after : List (Note Rat)) : Prop :=
  List.Forall₂ Shortens kept after ∧ ∃ missing : List (Note Rat), (kept ++ missing).Perm notes ∧
    ∀ m ∈ missing, ∃ k ∈ kept,
      k.channel = m.channel ∧ k.pitch = m.pitch ∧ |m.start - k.start| < slack

theorem Keeps.perm {notes kept kept' after after' : List (Note Rat)} (h : Keeps notes kept after)
    (hk : kept'.Perm kept) (hs : List.Forall₂ Shortens kept' after') : Keeps notes kept' after' := by
  obtain ⟨-, missing, hperm, hmissing⟩ := h
  refine ⟨hs, missing, (hk.append_right missing).trans hperm, fun m hm => ?_⟩
  obtain ⟨k, hmem, hnear⟩ := hmissing m hm
  exact ⟨k, hk.mem_iff.mpr hmem, hnear⟩

theorem separateUnisons_keeps (notes : List (Note Rat)) :
    ∃ kept, Keeps notes kept (separateUnisons notes).notes := by
  let groups := groupsBy sharesKey notes
  have hcuts : List.Forall₂ Shortens (groups.flatMap fun g => firstOfEach none (sortByStart g))
      (groups.flatMap fun g => (cutEach (firstOfEach none (sortByStart g))).map (·.1)) :=
    forall₂_shortens_flatMap _ fun g _ => cutEach_shortens _
  have hsorted : (groups.flatMap fun g =>
      (cutEach (firstOfEach none (sortByStart g))).map (·.1)).Perm (separateUnisons notes).notes := by
    refine .trans (.of_eq ?_) (sort_perm _).symm
    rw [List.flatMap_map, List.map_flatMap]
  obtain ⟨kept, hkept, hs⟩ := Articulator.exists_perm_forall₂ hcuts hsorted
  have hkeeps : Keeps notes (groups.flatMap fun g => firstOfEach none (sortByStart g)) _ :=
    ⟨hcuts, _, keepers_append_repeats_perm notes, fun m hm => ?_⟩
  · exact ⟨kept, hkeeps.perm hkept hs⟩
  · obtain ⟨g, hg, hm⟩ := List.mem_flatMap.mp hm
    obtain ⟨k, hk, hnear⟩ := exists_keeper hg hm
    exact ⟨k, List.mem_flatMap.mpr ⟨g, hg, hk⟩, hnear⟩

theorem separateChords_shortens (notes : List (Note Rat)) :
    ∃ before, before.Perm notes ∧ List.Forall₂ Shortens before (separateChords notes).notes := by
  have hcuts : List.Forall₂ Shortens ((groupsBy sharesChannel notes).flatMap sortByStart)
      ((groupsBy sharesChannel notes).flatMap fun g =>
        (cutSonorities (sonorities (sortByStart g))).map (·.1)) := by
    refine forall₂_shortens_flatMap _ fun g _ => ?_
    have h := cutSonorities_shortens (sonorities (sortByStart g))
    rwa [sonorities_flatten] at h
  have hsorted : ((groupsBy sharesChannel notes).flatMap fun g =>
      (cutSonorities (sonorities (sortByStart g))).map (·.1)).Perm (separateChords notes).notes := by
    refine .trans (.of_eq ?_) (sort_perm _).symm
    rw [List.map_flatMap]
  obtain ⟨before, hbefore, hs⟩ := Articulator.exists_perm_forall₂ hcuts hsorted
  have hgroups := List.Perm.flatMap_left (g := id) (groupsBy sharesChannel notes)
    fun g _ => sortByStart_perm g
  rw [List.flatMap_id] at hgroups
  exact ⟨before, hbefore.trans (hgroups.trans (groupsBy_flatten_perm sharesChannel notes)), hs⟩

theorem separate_keeps (notes : List (Note Rat)) :
    ∃ kept, Keeps notes kept (separate notes).notes := by
  obtain ⟨unisons, hunisons⟩ := separateUnisons_keeps notes
  obtain ⟨before, hbefore, hchords⟩ := separateChords_shortens (separateUnisons notes).notes
  obtain ⟨kept, hkept, hs⟩ := Articulator.exists_perm_forall₂ hunisons.1 hbefore.symm
  exact ⟨kept, hunisons.perm hkept (forall₂_shortens_trans hs hchords)⟩

/-- What is kept between a note and a later one of its channel. -/
def EndsBefore (a b : Note Rat) : Prop :=
  a.channel = b.channel → a.start < b.start → (a.pitch = b.pitch ∨ together < b.start - a.start) →
    a.finish ≤ b.start - gap + slack ∨ a.duration ≤ shortest

theorem EndsBefore.of_clear {a b : Note Rat} (h : Alternate a b) (h' : Releases a b) :
    EndsBefore a b := by
  intro hc hlt hnear
  rcases hnear with hp | hfar
  · exact (h hc hp).2.1 hlt
  · exact h' hc hfar hlt

theorem separate_endsBefore (notes : List (Note Rat)) :
    ∀ a ∈ (separate notes).notes, ∀ b ∈ (separate notes).notes, EndsBefore a b := by
  let Both (a b : Note Rat) : Prop := EndsBefore a b ∧ EndsBefore b a
  have hboth : (separate notes).notes.Pairwise Both := by
    refine (separate_alternate notes).imp₂ (fun a b halt hrel => ?_) (separateChords_releases _)
    exact ⟨.of_clear halt hrel.1, .of_clear (lasting_alternate.symm halt) hrel.2⟩
  have hself : ∀ a ∈ (separate notes).notes, Both a a := fun a _ =>
    ⟨fun _ hlt => absurd hlt (lt_irrefl _), fun _ hlt => absurd hlt (lt_irrefl _)⟩
  have hsymm : Std.Symm Both := ⟨fun _ _ h => h.symm⟩
  exact fun a ha b hb => (hboth.forall_of_forall hself ha hb).1

/-- Separation sorts the notes, leaves out none but those that repeat another, makes none longer,
and ends each a gap before any later note of its channel that has its pitch or does not sound
together with it. -/
theorem separate_ordered_kept_clear (notes : List (Note Rat)) :
    (separate notes).notes.Pairwise InOrder ∧
      (∃ kept missing : List (Note Rat), (kept ++ missing).Perm notes ∧
        List.Forall₂ Shortens kept (separate notes).notes ∧
        ∀ m ∈ missing, ∃ k ∈ kept,
          k.channel = m.channel ∧ k.pitch = m.pitch ∧ |m.start - k.start| < slack) ∧
      ∀ a ∈ (separate notes).notes, ∀ b ∈ (separate notes).notes,
        a.channel = b.channel → a.start < b.start →
        (a.pitch = b.pitch ∨ together < b.start - a.start) →
        a.finish ≤ b.start - gap + slack ∨ a.duration ≤ shortest := by
  obtain ⟨kept, hs, missing, hperm, hmissing⟩ := separate_keeps notes
  exact ⟨sort_inOrder _, ⟨kept, missing, hperm, hs, hmissing⟩, separate_endsBefore notes⟩

end MusicPart.Note
