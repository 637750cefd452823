import MusicPart.Proofs.Overlaps
import MusicPart.Proofs.Rearranging
import MusicPart.Proofs.Sums

/-!
# Separate notes stay as they are

Separation leaves notes in which nothing is left to separate: they are in order, no two of one
channel and pitch begin together, and no note has to be cut for a later one. Such notes are
separated without a change, rounded times included. Onsets that are not numbers have no order, and
notes with such onsets may be separated more than once.
-/

namespace MusicPart.Note

open Quantity (IsNumber Lawful Ordered Summed)

variable {α : Type} [Quantity α]

/-! ### Sorting -/

section Sorting

variable [Lawful α] {notes : List (Note α)}

/-- Notes in order are in order of onset. -/
theorem sortByStart_of_ordered (h : ∀ n ∈ notes, n.isTimed = true)
    (hordered : notes.Pairwise fun a b => (!precedes b a) = true) : sortByStart notes = notes := by
  refine List.mergeSort_of_pairwise (hordered.imp_of_mem fun {a b} ha hb hab => ?_)
  rw [not_precedes_eq (h a ha) (h b hb), thenBy, Bool.and_eq_true] at hab
  exact hab.1

/-- Notes of one channel and pitch are in order if they are in order of onset. -/
theorem sort_of_sharesKey {a : Note α} (hkey : ∀ n ∈ notes, sharesKey a n = true)
    (h : ∀ n ∈ notes, n.isTimed = true) (hordered : notes.Pairwise fun a b => notAfter a b = true) :
    sort notes = notes := by
  refine List.mergeSort_of_pairwise (hordered.imp_of_mem fun {b c} hb hc hbc => ?_)
  have hb' := hkey b hb
  have hc' := hkey c hc
  simp only [sharesKey, Bool.and_eq_true, beq_iff_eq] at hb' hc'
  rw [not_precedes_eq (h b hb) (h c hc), thenBy, hbc, thenBy, byKey, byKey, byKey, ← hb'.1, ← hb'.2,
    ← hc'.1, ← hc'.2]
  simp

end Sorting

/-! ### Notes that are not cut -/

/-- Notes none of which has to be cut. -/
def uncut (notes : List (Note α)) : List (Note α × Bool) := notes.map (·, false)

/-- The second note is the first one with a duration for which it is cut nowhere where the first one
is not. -/
structure Eases (a b : Note α) : Prop where
  same : b = { a with duration := b.duration }
  uncut (limit : α) : cut? limit a = none → cut? limit b = none

variable {n m : Note α} {next : Option (Note α)} {xs ys : List (Note α)} {limit : α}

theorem Eases.start_eq (h : Eases n m) : m.start = n.start := by
  rw [h.same]

theorem Eases.refl (n : Note α) : Eases n n := ⟨rfl, fun _ h => h⟩

theorem head?_start_of_eases (h : List.Forall₂ Eases xs ys) :
    ys.head?.map start = xs.head?.map start := by
  cases h with
  | nil => rfl
  | cons hhead _ => exact congrArg some hhead.start_eq

theorem cut?_eq_none_iff : cut? limit n = none ↔ n.finish ≤ limit + slack ∨
    n.duration ≤ Quantity.greater shortest (limit - n.start) := by
  rw [cut?]
  simp [or_iff_not_imp_left]

theorem eq_of_cut?_eq_some (h : cut? limit n = some m) :
    m = { n with duration := Quantity.greater shortest (limit - n.start) } ∧
      ¬n.duration ≤ Quantity.greater shortest (limit - n.start) := by
  rw [cut?] at h
  split at h
  · cases h
  · rename_i hno
    simp only [Bool.or_eq_true, decide_eq_true_eq, not_or] at hno
    exact ⟨(Option.some.inj h).symm, hno.2⟩

theorem cutBefore_eq_uncut_iff :
    cutBefore next n = (n, false) ↔ ∀ m ∈ next, cut? (m.start - gap) n = none := by
  rw [cutBefore]
  cases next with
  | none => simp
  | some m =>
      cases hcut : cut? (m.start - gap) n with
      | none => simp [hcut]
      | some shorter => simp [hcut]

theorem cutEach_of_eases (h : List.Forall₂ Eases xs ys) (huncut : cutEach xs = uncut xs) :
    cutEach ys = uncut ys := by
  induction h with
  | nil => rfl
  | @cons x y xs ys hxy hrest ih =>
      obtain ⟨hx, hxs⟩ := List.cons.inj huncut
      have hy : cutBefore ys.head? y = (y, false) := by
        apply cutBefore_eq_uncut_iff.mpr
        intro next hnext
        have hhead := head?_start_of_eases hrest
        rw [Option.mem_def.mp hnext] at hhead
        obtain ⟨k, hk, hstart⟩ := Option.map_eq_some_iff.mp hhead.symm
        apply hxy.uncut
        rw [← hstart]
        exact cutBefore_eq_uncut_iff.mp hx k hk
      rw [cutEach, hy, ih hxs]
      rfl

/-- Notes that sound together, and then others of which the first one does not. -/
theorem sonorities_append {near rest : List (Note α)}
    (hnear : ∀ m ∈ near, ¬together < m.start - n.start)
    (hrest : ∀ m ∈ rest.head?, together < m.start - n.start) :
    sonorities (n :: near ++ rest) = (n :: near) :: sonorities rest := by
  have htake : (near ++ rest).takeWhile (fun m => !decide (together < m.start - n.start)) = near := by
    rw [List.takeWhile_append_of_pos (by simpa using hnear)]
    cases rest with
    | nil => simp
    | cons m rest =>
        rw [List.takeWhile_cons_of_neg (by simpa using hrest m rfl), List.append_nil]
  rw [List.cons_append, sonorities]
  simp only [htake, List.drop_left]

/-! ### Cutting again -/

section Cuts

variable [Summed α]

theorem isNumber_shortest : IsNumber (shortest : α) :=
  Lawful.isNumber_of_isFinite Lawful.isFinite_sixteenth

theorem le_self {x : α} (h : IsNumber x) : x ≤ x :=
  Ordered.le_iff.mpr ⟨h, h, fun hlt => Lawful.not_lt_of_lt hlt hlt⟩

theorem shortest_le_greater (x : α) : shortest ≤ Quantity.greater shortest x := by
  rw [Quantity.greater]
  split
  · rename_i h
    exact Ordered.le_of_lt h
  · exact le_self isNumber_shortest

theorem isNumber_greater (x : α) : IsNumber (Quantity.greater shortest x) :=
  (Ordered.le_iff.mp (shortest_le_greater x)).2.1

/-- A note that was cut for a limit is not cut for it again. -/
theorem cut?_of_cut?_eq_some (h : cut? limit n = some m) : cut? limit m = none := by
  obtain ⟨rfl, -⟩ := eq_of_cut?_eq_some h
  apply cut?_eq_none_iff.mpr
  right
  exact le_self (isNumber_greater _)

theorem eases_of_cut?_eq_some (h : cut? limit n = some m) : Eases n m := by
  obtain ⟨rfl, hlong⟩ := eq_of_cut?_eq_some h
  refine ⟨rfl, fun later huncut => ?_⟩
  have hshortest := shortest_le_greater (limit - n.start)
  have hshorter (hnumber : IsNumber n.duration) :
      Quantity.greater shortest (limit - n.start) ≤ n.duration :=
    Ordered.le_iff.mpr ⟨isNumber_greater _, hnumber, fun hlt => hlong (Ordered.le_of_lt hlt)⟩
  apply cut?_eq_none_iff.mpr
  rcases cut?_eq_none_iff.mp huncut with hover | hshort
  · left
    have hfinish : IsNumber (n.start + n.duration) := (Ordered.le_iff.mp hover).1
    have hle := hshorter (Summed.isNumber_of_add hfinish)
    exact Ordered.le_trans (Summed.add_le_add hfinish hshortest hle) hover
  · right
    exact Ordered.le_trans (hshorter (Ordered.le_iff.mp hshort).1) hshort

theorem eases_cutBefore (next : Option (Note α)) (n : Note α) : Eases n (cutBefore next n).1 := by
  rw [cutBefore]
  split
  · rename_i shorter hcut
    obtain ⟨m, -, hcut⟩ := Option.bind_eq_some_iff.mp hcut
    exact eases_of_cut?_eq_some hcut
  · exact .refl n

/-- A note cut before another one is not cut again before one that begins with it. -/
theorem cutBefore_cutBefore {after : Option (Note α)} (h : after.map start = next.map start) :
    cutBefore after (cutBefore next n).1 = ((cutBefore next n).1, false) := by
  apply cutBefore_eq_uncut_iff.mpr
  intro m hm
  rw [Option.mem_def.mp hm] at h
  obtain ⟨k, rfl, hk⟩ := Option.map_eq_some_iff.mp h.symm
  rw [← hk, cutBefore]
  simp only [Option.bind_some]
  split
  · rename_i shorter hcut
    exact cut?_of_cut?_eq_some hcut
  · rename_i hcut
    exact hcut

theorem cutEach_cutEach (notes : List (Note α)) :
    cutEach ((cutEach notes).map (·.1)) = uncut ((cutEach notes).map (·.1)) := by
  induction notes with
  | nil => rfl
  | cons n notes ih =>
      have hhead := head?_start_of_eases (forall₂_cutEach eases_cutBefore notes)
      rw [cutEach, List.map_cons, cutEach, cutBefore_cutBefore hhead, ih]
      rfl

/-- What the notes of one channel, in order of onset, are cut to. -/
def released (notes : List (Note α)) : List (Note α) :=
  (cutSonorities (sonorities notes)).map (·.1)

theorem forall₂_released (notes : List (Note α)) : List.Forall₂ Eases notes (released notes) := by
  have h := forall₂_cutSonorities eases_cutBefore (sonorities notes)
  rwa [sonorities_flatten] at h

theorem cutSonorities_released (notes : List (Note α)) :
    cutSonorities (sonorities (released notes)) = uncut (released notes) := by
  fun_induction sonorities notes with
  | case1 => simp [released, sonorities, cutSonorities, uncut]
  | case2 n notes near ih =>
      let rest := notes.drop near.length
      let cut (m : Note α) : Note α := (cutBefore rest.head? m).1
      have hcut (m : Note α) : (cut m).start = m.start := (eases_cutBefore rest.head? m).start_eq
      have hreleased : released (n :: notes) = (n :: near).map cut ++ released rest := by
        rw [released, sonorities, cutSonorities, head?_sonorities, List.map_append, List.map_map]
        rfl
      have hhead := head?_start_of_eases (forall₂_released rest)
      have hsonorities : sonorities (released (n :: notes)) =
          (n :: near).map cut :: sonorities (released rest) := by
        rw [hreleased, List.map_cons]
        apply sonorities_append
        · intro m hm
          obtain ⟨k, hk, rfl⟩ := List.mem_map.mp hm
          rw [hcut, hcut]
          simpa using List.mem_takeWhile_imp hk
        · intro m hm
          rw [Option.mem_def.mp hm] at hhead
          obtain ⟨k, hk, hstart⟩ := Option.map_eq_some_iff.mp hhead.symm
          rw [hcut, ← hstart]
          exact together_lt_of_head? hk
      have hfirst : ((n :: near).map cut).map (cutBefore (released rest).head?) =
          uncut ((n :: near).map cut) := by
        apply List.map_congr_left
        intro m hm
        obtain ⟨k, -, rfl⟩ := List.mem_map.mp hm
        exact cutBefore_cutBefore hhead
      rw [hsonorities, cutSonorities, head?_sonorities, hfirst, ih, hreleased, uncut, uncut, uncut,
        List.map_append]

end Cuts

/-! ### One onset each -/

theorem firstOfEach_firstOfEach (last : Option α) (notes : List (Note α)) :
    firstOfEach last (firstOfEach last notes) = firstOfEach last notes := by
  induction notes generalizing last with
  | nil => rfl
  | cons n notes ih =>
      rw [firstOfEach]
      split
      · exact ih last
      · rename_i hfar
        rw [firstOfEach, if_neg hfar, ih]

/-- Which notes are left out depends on their onsets only. -/
theorem firstOfEach_of_eases (h : List.Forall₂ Eases xs ys) {last : Option α}
    (hfirst : firstOfEach last xs = xs) : firstOfEach last ys = ys := by
  induction h generalizing last with
  | nil => rfl
  | @cons x y xs ys hxy _ ih =>
      rw [firstOfEach] at hfirst
      split at hfirst
      · have hle := (firstOfEach_sublist last xs).length_le
        rw [hfirst, List.length_cons] at hle
        omega
      · rename_i hfar
        rw [firstOfEach, hxy.start_eq, if_neg hfar, ih (List.cons.inj hfirst).2]

theorem repeats_of_firstOfEach {last : Option α} (h : firstOfEach last xs = xs) :
    repeats last xs = [] := by
  have hlength := (firstOfEach_append_repeats_perm last xs).length_eq
  rw [h, List.length_append] at hlength
  exact List.eq_nil_of_length_eq_zero (by omega)

/-! ### Nothing left to separate -/

/-- Notes in order, no two of one channel and pitch together, and none that has to be cut. -/
structure IsSeparate (notes : List (Note α)) : Prop where
  timed : ∀ n ∈ notes, n.isTimed = true
  ordered : notes.Pairwise fun a b => (!precedes b a) = true
  single (a : Note α) : firstOfEach none (notes.filter (sharesKey a)) = notes.filter (sharesKey a)
  unisons (a : Note α) : cutEach (notes.filter (sharesKey a)) = uncut (notes.filter (sharesKey a))
  chords (a : Note α) : cutSonorities (sonorities (notes.filter (sharesChannel a))) =
    uncut (notes.filter (sharesChannel a))

omit [Quantity α] in
theorem map_uncut (groups : List (List (Note α))) :
    (groups.flatMap uncut).map (·.1) = groups.flatten ∧ (groups.flatMap uncut).countP (·.2) = 0 := by
  constructor
  · rw [List.map_flatMap, List.flatten_eq_flatMap]
    congr 1
    funext g
    rw [uncut, List.map_map]
    exact List.map_id g
  · rw [List.countP_eq_zero]
    intro p hp
    obtain ⟨g, -, hg⟩ := List.mem_flatMap.mp hp
    obtain ⟨n, -, rfl⟩ := List.mem_map.mp hg
    exact Bool.false_ne_true

namespace IsSeparate

variable [Lawful α] {notes : List (Note α)} (h : IsSeparate notes)

include h

theorem sortByStart_filter (q : Note α → Bool) :
    sortByStart (notes.filter q) = notes.filter q :=
  sortByStart_of_ordered (fun n hn => h.timed n (List.mem_filter.mp hn).1)
    (h.ordered.sublist List.filter_sublist)

/-- Grouping and sorting again gives the notes as they stood. -/
theorem sort_flatten_groupsBy {same : Note α → Note α → Bool} (hsame : Equates same)
    (hcoincides : ∀ {a n}, coincides a n = true → same a n = true) :
    sort (groupsBy same notes).flatten = notes := by
  have hperm := groupsBy_flatten_perm same notes
  have hgroup (a : Note α) :
      (groupsBy same notes).flatten.filter (same a) = notes.filter (same a) := by
    rw [← List.flatMap_id]
    exact hsame.filter_flatMap_groupsBy (f := id) rfl
      (fun {_ n} hn => ⟨n, hn, hsame.refl n⟩) a notes
  have hrearranged : Rearranged (groupsBy same notes).flatten notes := by
    refine ⟨fun n hn => h.timed n (hperm.mem_iff.mp hn), h.timed, fun a _ => ?_⟩
    have hboth (n : Note α) : coincides a n = (coincides a n && same a n) := by
      by_cases ha : coincides a n = true
      · rw [ha, hcoincides ha]
        rfl
      · rw [Bool.not_eq_true] at ha
        rw [ha, Bool.false_and]
    rw [funext hboth, ← List.filter_filter, ← List.filter_filter, hgroup]
  calc sort (groupsBy same notes).flatten = sort notes := hrearranged.sort_eq
    _ = notes := List.mergeSort_of_pairwise h.ordered

theorem separateUnisons_eq : separateUnisons notes = ⟨notes, {}⟩ := by
  have hgroup : ∀ g ∈ groupsBy sharesKey notes, sortByStart g = g ∧ firstOfEach none g = g ∧
      cutEach g = uncut g := by
    intro g hg
    obtain ⟨a, -, rfl⟩ := equates_sharesKey.exists_filter_of_mem_groupsBy hg
    exact ⟨h.sortByStart_filter _, h.single a, h.unisons a⟩
  have hcuts : (groupsBy sharesKey notes).flatMap
      (fun g => cutEach (firstOfEach none (sortByStart g))) =
        (groupsBy sharesKey notes).flatMap uncut := by
    refine List.flatMap_congr fun g hg => ?_
    obtain ⟨hsorted, hfirst, hcut⟩ := hgroup g hg
    rw [hsorted, hfirst, hcut]
  have hrepeats : ((groupsBy sharesKey notes).flatMap
      fun g => repeats none (sortByStart g)) = [] := by
    refine List.flatMap_eq_nil_iff.mpr fun g hg => ?_
    obtain ⟨hsorted, hfirst, -⟩ := hgroup g hg
    rw [hsorted]
    exact repeats_of_firstOfEach hfirst
  obtain ⟨hnotes, hcount⟩ := map_uncut (groupsBy sharesKey notes)
  rw [separateUnisons]
  simp only [List.flatMap_map, hcuts, hrepeats, hnotes, hcount]
  rw [h.sort_flatten_groupsBy equates_sharesKey]
  · rfl
  · intro a n hn
    simp only [coincides, Bool.and_eq_true] at hn
    simp [sharesKey, hn.2.1, hn.2.2]

theorem separateChords_eq : separateChords notes = ⟨notes, {}⟩ := by
  have hcuts : (groupsBy sharesChannel notes).flatMap
      (fun g => cutSonorities (sonorities (sortByStart g))) =
        (groupsBy sharesChannel notes).flatMap uncut := by
    refine List.flatMap_congr fun g hg => ?_
    obtain ⟨a, -, rfl⟩ := equates_sharesChannel.exists_filter_of_mem_groupsBy hg
    rw [h.sortByStart_filter]
    exact h.chords a
  obtain ⟨hnotes, hcount⟩ := map_uncut (groupsBy sharesChannel notes)
  rw [separateChords]
  simp only [hcuts, hnotes, hcount]
  rw [h.sort_flatten_groupsBy equates_sharesChannel]
  · intro a n hn
    simp only [coincides, Bool.and_eq_true] at hn
    exact hn.2.2

/-- Separate notes stay as they are. -/
theorem separate_eq : separate notes = ⟨notes, {}⟩ := by
  rw [separate, h.separateUnisons_eq, h.separateChords_eq]

end IsSeparate

/-! ### Separating twice -/

theorem precedes_of_eases {a b a' b' : Note α} (ha : Eases a a') (hb : Eases b b') :
    precedes b' a' = precedes b a := by
  rw [ha.same, hb.same]
  rfl

theorem isTimed_of_eases (h : Eases n m) : m.isTimed = n.isTimed := by
  rw [h.same]
  rfl

theorem sharesKey_of_eases (a : Note α) (h : Eases n m) : sharesKey a m = sharesKey a n := by
  rw [h.same]
  rfl

theorem sharesChannel_of_eases (h : Eases n m) : sharesChannel n m = true := by
  rw [h.same]
  exact equates_sharesChannel.refl n

omit [Quantity α] in
theorem filter_sharesKey_filter_sharesChannel (a : Note α) (notes : List (Note α)) :
    (notes.filter (sharesChannel a)).filter (sharesKey a) = notes.filter (sharesKey a) := by
  rw [List.filter_filter]
  refine List.filter_congr fun n _ => ?_
  rw [sharesKey, sharesChannel]
  cases a.channel == n.channel <;> simp

variable [Summed α]

/-- What is left of the notes of one channel and pitch. -/
theorem forall₂_alternating (notes : List (Note α)) :
    List.Forall₂ Eases (firstOfEach none (sortByStart notes)) (alternating notes) :=
  forall₂_cutEach eases_cutBefore _

theorem sort_alternating {notes : List (Note α)} (h : ∀ n ∈ notes, n.isTimed = true)
    (a : Note α) : sort (alternating (notes.filter (sharesKey a))) =
      alternating (notes.filter (sharesKey a)) := by
  have hselected : ∀ n ∈ notes.filter (sharesKey a), n.isTimed = true :=
    fun n hn => h n (List.mem_filter.mp hn).1
  have hmem {n : Note α} (hn : n ∈ alternating (notes.filter (sharesKey a))) :
      ∃ m ∈ notes.filter (sharesKey a), n = { m with duration := n.duration } :=
    exists_of_mem_alternating hn
  apply sort_of_sharesKey (a := a)
  · intro n hn
    obtain ⟨m, hm, hmn⟩ := hmem hn
    rw [hmn]
    exact (List.mem_filter.mp hm).2
  · intro n hn
    obtain ⟨m, hm, hmn⟩ := hmem hn
    rw [hmn]
    exact hselected m hm
  · refine pairwise_of_forall₂ (forall₂_alternating _) (fun {a b a' b'} hab ha hb => ?_)
      ((ordersOn_notAfter.pairwise_mergeSort hselected).sublist (firstOfEach_sublist none _))
    rw [notAfter, ha.start_eq, hb.start_eq]
    exact hab

theorem filter_sharesKey_separateUnisons {notes : List (Note α)}
    (h : ∀ n ∈ notes, n.isTimed = true) (a : Note α) :
    (separateUnisons notes).notes.filter (sharesKey a) =
      alternating (notes.filter (sharesKey a)) := by
  rw [notes_separateUnisons, filter_sort (isTimed_of_mem_alternating h), filter_alternating,
    sort_alternating h]

section Chords

variable {notes : List (Note α)} (h : ∀ n ∈ notes, n.isTimed = true)
  (hordered : notes.Pairwise fun a b => (!precedes b a) = true)

include h

theorem isTimed_of_mem_released :
    ∀ n ∈ (groupsBy sharesChannel notes).flatMap released, n.isTimed = true := by
  intro n hn
  obtain ⟨g, hg, hn⟩ := List.mem_flatMap.mp hn
  obtain ⟨m, hm, hmn⟩ := exists_mem_of_forall₂ (forall₂_released g) hn
  rw [isTimed_of_eases hmn]
  exact h m ((groupsBy_flatten_perm sharesChannel notes).mem_iff.mp
    (List.mem_flatten.mpr ⟨g, hg, hm⟩))

include hordered

theorem notes_separateChords :
    (separateChords notes).notes = sort ((groupsBy sharesChannel notes).flatMap released) := by
  rw [separateChords]
  dsimp only
  rw [List.map_flatMap]
  congr 1
  refine List.flatMap_congr fun g hg => ?_
  obtain ⟨a, -, rfl⟩ := equates_sharesChannel.exists_filter_of_mem_groupsBy hg
  rw [sortByStart_of_ordered (fun n hn => h n (List.mem_filter.mp hn).1)
    (hordered.sublist List.filter_sublist)]
  rfl

theorem filter_sharesChannel_separateChords (a : Note α) :
    (separateChords notes).notes.filter (sharesChannel a) =
      released (notes.filter (sharesChannel a)) := by
  have hgroup : ((groupsBy sharesChannel notes).flatMap released).filter (sharesChannel a) =
      released (notes.filter (sharesChannel a)) := by
    refine equates_sharesChannel.filter_flatMap_groupsBy ?_ (fun {g n} hn => ?_) a notes
    · simp [released, sonorities, cutSonorities]
    · obtain ⟨m, hm, hmn⟩ := exists_mem_of_forall₂ (forall₂_released g) hn
      exact ⟨m, hm, sharesChannel_of_eases hmn⟩
  have hsorted : (released (notes.filter (sharesChannel a))).Pairwise
      fun a b => (!precedes b a) = true := by
    refine pairwise_of_forall₂ (forall₂_released _) (fun {a b a' b'} hab ha hb => ?_)
      (hordered.sublist List.filter_sublist)
    rw [precedes_of_eases ha hb]
    exact hab
  rw [notes_separateChords h hordered, filter_sort (isTimed_of_mem_released h), hgroup]
  exact List.mergeSort_of_pairwise hsorted

end Chords

/-- Nothing is left to separate in separated notes. -/
theorem isSeparate_separate {notes : List (Note α)} (h : ∀ n ∈ notes, n.isTimed = true) :
    IsSeparate (separate notes).notes := by
  have hunisons : ∀ n ∈ (separateUnisons notes).notes, n.isTimed = true := by
    rw [notes_separateUnisons]
    exact fun n hn => isTimed_of_mem_alternating h n ((sort_perm _).mem_iff.mp hn)
  have hordered : (separateUnisons notes).notes.Pairwise fun a b => (!precedes b a) = true := by
    rw [notes_separateUnisons]
    exact pairwise_sort (isTimed_of_mem_alternating h)
  have hsorted := notes_separateChords hunisons hordered
  have heases (a : Note α) : List.Forall₂ Eases (alternating (notes.filter (sharesKey a)))
      ((separate notes).notes.filter (sharesKey a)) := by
    rw [← filter_sharesKey_separateUnisons h, ← filter_sharesKey_filter_sharesChannel,
      ← filter_sharesKey_filter_sharesChannel a (separate notes).notes, separate,
      filter_sharesChannel_separateChords hunisons hordered]
    refine List.rel_filter (fun n m hnm => ?_) (forall₂_released _)
    change sharesKey a n = true ↔ sharesKey a m = true
    rw [sharesKey_of_eases a hnm]
  refine ⟨?timed, ?ordered, ?single, ?unisons, ?chords⟩
  case timed =>
    rw [separate, hsorted]
    exact fun n hn => isTimed_of_mem_released hunisons n ((sort_perm _).mem_iff.mp hn)
  case ordered =>
    rw [separate, hsorted]
    exact pairwise_sort (isTimed_of_mem_released hunisons)
  case single =>
    intro a
    apply firstOfEach_of_eases (heases a)
    exact firstOfEach_of_eases (forall₂_alternating _) (firstOfEach_firstOfEach none _)
  case unisons =>
    intro a
    exact cutEach_of_eases (heases a) (cutEach_cutEach _)
  case chords =>
    intro a
    rw [separate, filter_sharesChannel_separateChords hunisons hordered]
    exact cutSonorities_released _

/-- Separating notes again changes nothing and reports nothing, if they begin at numbers. -/
theorem separate_separate {notes : List (Note α)} (h : ∀ n ∈ notes, n.isTimed = true) :
    separate (separate notes).notes = ⟨(separate notes).notes, {}⟩ :=
  (isSeparate_separate h).separate_eq

/-- Two tones of one pitch at once, a chord over them that is not quite together, and a tone that is
over before the next sonority. -/
def tangledTones : List (Note Float) :=
  [⟨0, 4, 60, 80, 1, []⟩, ⟨0, 2, 60, 80, 1, []⟩, ⟨0.03125, 3, 64, 80, 1, []⟩,
    ⟨1, 0.0625, 60, 80, 1, []⟩, ⟨1.0625, 1, 67, 80, 1, []⟩]

theorem tangledTones_separate_separate : (∀ n ∈ tangledTones, n.isTimed = true) ∧
    separate (separate tangledTones).notes = ⟨(separate tangledTones).notes, {}⟩ := by
  have htimed : ∀ n ∈ tangledTones, n.isTimed = true := by decide
  exact ⟨htimed, separate_separate htimed⟩

end MusicPart.Note
