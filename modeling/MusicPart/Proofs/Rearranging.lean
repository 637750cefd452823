import MusicPart.Instrument.Reader
import MusicPart.Proofs.RawNotes
import MusicPart.Proofs.Readings
import MusicPart.Proofs.Separation
import MusicPart.Proofs.TimeOrder

/-!
# Rearranged notes

The order in which a candidate lists its notes does not show in the part. Each stage that looks at a
note next to others sorts first, and sorting is stable, so the order in which notes came matters
only among those that coincide. What sorting does to onsets that are not numbers depends on all of
the order, and only drum hits can have such onsets.
-/

namespace MusicPart

open Json (Value)
open Quantity (IsNumber Lawful)

variable {α : Type} [Quantity α]

namespace Note

def isTimed (n : Note α) : Bool := n.start == n.start

/-- The notes begin together at one pitch. -/
def beginsWith (a b : Note α) : Bool := a.start == b.start && a.pitch == b.pitch

/-- The notes begin together at one pitch and in one channel. -/
def coincides (a b : Note α) : Bool := a.start == b.start && (a.pitch == b.pitch &&
  a.channel == b.channel)

/-! ### What is sorted by -/

def notAfter (a b : Note α) : Bool := !decide (b.start < a.start)

omit [Quantity α] in
theorem not_ite_pitch (a b : Note α) (next : Bool) :
    (!(if b.pitch != a.pitch then decide (b.pitch < a.pitch) else next)) =
      (byKey pitch a b && (!byKey pitch b a || !next)) := by
  rcases lt_trichotomy a.pitch b.pitch with h | h | h
  · simp [byKey, h.le, h.ne', h.not_gt, h]
  · simp [byKey, h]
  · simp [byKey, h.ne, h]

section Orders

variable [Lawful α]

theorem ordersOn_notAfter : OrdersOn isTimed (notAfter (α := α)) := ordersOn_notLaterBy start

theorem ordersOn_pitch : OrdersOn isTimed (thenBy (notAfter (α := α)) (byKey pitch)) :=
  ordersOn_notAfter.thenBy (.byKey _ _)

theorem ordersOn_channel :
    OrdersOn isTimed (thenBy (notAfter (α := α)) (thenBy (byKey pitch) (byKey channel))) :=
  ordersOn_notAfter.thenBy (.thenBy (.byKey _ _) (.byKey _ _))

section Ties

variable {a b : Note α} (ha : isTimed a = true) (hb : isTimed b = true)

include ha hb

theorem ties_notAfter : ties notAfter a b = (a.start == b.start) := ties_notLaterBy ha hb

theorem ties_pitch : ties (thenBy notAfter (byKey pitch)) a b = beginsWith a b := by
  rw [ties_thenBy, ties_notAfter ha hb, ties_byKey, beginsWith]

theorem ties_channel :
    ties (thenBy notAfter (thenBy (byKey pitch) (byKey channel))) a b = coincides a b := by
  rw [ties_thenBy, ties_notAfter ha hb, ties_thenBy, ties_byKey, ties_byKey, coincides]

theorem not_ite_start (next : Bool) :
    (!(if b.start != a.start then decide (b.start < a.start) else next)) =
      (notAfter a b && (!notAfter b a || !next)) := by
  have hbeq := Lawful.beq_iff hb ha
  by_cases heq : (b.start == a.start) = true
  · obtain ⟨hba, hab⟩ := hbeq.mp heq
    simp [notAfter, bne, heq, hba, hab]
  · by_cases hba : b.start < a.start
    · simp [notAfter, bne, heq, hba]
    · have hab : a.start < b.start := by
        by_contra hab
        exact heq (hbeq.mpr ⟨hba, hab⟩)
      simp [notAfter, bne, heq, hba, hab]

theorem not_precedes_eq :
    (!precedes b a) = thenBy notAfter (thenBy (byKey pitch) (byKey channel)) a b := by
  rw [precedes, not_ite_start ha hb, not_ite_pitch, not_decide_lt channel]
  rfl

theorem not_precedesByPitch_eq :
    (!(if b.start != a.start then decide (b.start < a.start) else decide (b.pitch < a.pitch))) =
      thenBy notAfter (byKey pitch) a b := by
  rw [not_ite_start ha hb, not_decide_lt pitch]
  rfl

end Ties

theorem ordersOn_sort : OrdersOn isTimed fun a b : Note α => !precedes b a :=
  ordersOn_channel.congr not_precedes_eq

theorem pairwise_sort {notes : List (Note α)} (h : ∀ n ∈ notes, n.isTimed = true) :
    (sort notes).Pairwise fun a b => (!precedes b a) = true := ordersOn_sort.pairwise_mergeSort h

theorem filter_sort {notes : List (Note α)} (h : ∀ n ∈ notes, n.isTimed = true)
    (q : Note α → Bool) : (sort notes).filter q = sort (notes.filter q) :=
  ordersOn_sort.filter_mergeSort h q

end Orders

/-! ### Rearrangements -/

/-- Lists of notes that begin at numbers, where those that coincide come in the same order. -/
structure Rearranged (xs ys : List (Note α)) : Prop where
  left : ∀ n ∈ xs, isTimed n = true
  right : ∀ n ∈ ys, isTimed n = true
  ties : ∀ a, isTimed a = true → xs.filter (coincides a) = ys.filter (coincides a)

namespace Rearranged

variable {xs ys : List (Note α)}

theorem append (h : Rearranged xs ys) {zs : List (Note α)} (hz : ∀ n ∈ zs, isTimed n = true) :
    Rearranged (xs ++ zs) (ys ++ zs) where
  left n hn := (List.mem_append.mp hn).elim (h.left n) (hz n)
  right n hn := (List.mem_append.mp hn).elim (h.right n) (hz n)
  ties a ha := by rw [List.filter_append, List.filter_append, h.ties a ha]

/-- The notes of one channel and pitch. -/
theorem filter_sharesKey (h : Rearranged xs ys) (a : Note α) {b : Note α} (hb : isTimed b = true) :
    (xs.filter (sharesKey a)).filter (fun n => b.start == n.start) =
      (ys.filter (sharesKey a)).filter (fun n => b.start == n.start) := by
  have hsame (n : Note α) : ((b.start == n.start) && sharesKey a n) =
      coincides { b with pitch := a.pitch, channel := a.channel } n := by
    simp [coincides, sharesKey, Bool.and_comm]
  simp only [List.filter_filter, hsame]
  exact h.ties _ hb

variable [Lawful α]

theorem sort_eq (h : Rearranged xs ys) : sort xs = sort ys :=
  ordersOn_channel.mergeSort_eq_of_ties not_precedes_eq ties_channel h.left h.right h.ties

theorem sortByStart_eq (h : Rearranged xs ys) (a : Note α) :
    sortByStart (xs.filter (sharesKey a)) = sortByStart (ys.filter (sharesKey a)) := by
  have hleft : ∀ n ∈ xs.filter (sharesKey a), isTimed n = true :=
    fun n hn => h.left n (List.mem_filter.mp hn).1
  have hright : ∀ n ∈ ys.filter (sharesKey a), isTimed n = true :=
    fun n hn => h.right n (List.mem_filter.mp hn).1
  exact ordersOn_notAfter.mergeSort_eq_of_ties (fun _ _ => rfl) ties_notAfter hleft hright
    fun b hb => h.filter_sharesKey a hb

end Rearranged

/-! ### Separation -/

theorem cutBefore_eq (next : Option (Note α)) (n : Note α) :
    (cutBefore next n).1 = { n with duration := (cutBefore next n).1.duration } := by
  rw [cutBefore]
  split
  · rename_i shorter hcut
    obtain ⟨m, -, hcut⟩ := Option.bind_eq_some_iff.mp hcut
    rw [cut?] at hcut
    split at hcut
    · cases hcut
    · cases hcut
      rfl
  · rfl

theorem exists_of_mem_cutEach {notes : List (Note α)} {n : Note α}
    (h : n ∈ (cutEach notes).map (·.1)) : ∃ m ∈ notes, n = { m with duration := n.duration } := by
  induction notes with
  | nil => exact absurd h List.not_mem_nil
  | cons m notes ih =>
      rw [cutEach, List.map_cons] at h
      rcases List.mem_cons.mp h with rfl | h
      · exact ⟨m, List.mem_cons_self, cutBefore_eq _ m⟩
      · obtain ⟨k, hk, hkn⟩ := ih h
        exact ⟨k, List.mem_cons_of_mem m hk, hkn⟩

/-- What separation leaves of the notes of one channel and pitch. -/
def alternating (g : List (Note α)) : List (Note α) :=
  (cutEach (firstOfEach none (sortByStart g))).map (·.1)

@[simp]
theorem alternating_nil : alternating ([] : List (Note α)) = [] := by
  simp [alternating, sortByStart, firstOfEach, cutEach]

theorem exists_of_mem_alternating {g : List (Note α)} {n : Note α} (h : n ∈ alternating g) :
    ∃ m ∈ g, n = { m with duration := n.duration } := by
  obtain ⟨m, hm, hmn⟩ := exists_of_mem_cutEach h
  exact ⟨m, (sortByStart_perm g).mem_iff.mp ((firstOfEach_sublist none _).subset hm), hmn⟩

/-- Each group is separated by itself. -/
theorem filter_alternating (a : Note α) (notes : List (Note α)) :
    ((groupsBy sharesKey notes).flatMap alternating).filter (sharesKey a) =
      alternating (notes.filter (sharesKey a)) := by
  refine equates_sharesKey.filter_flatMap_groupsBy alternating_nil (fun {g n} hn => ?_) a notes
  obtain ⟨m, hm, hmn⟩ := exists_of_mem_alternating hn
  refine ⟨m, hm, ?_⟩
  rw [hmn]
  exact equates_sharesKey.refl m

theorem notes_separateUnisons (notes : List (Note α)) : (separateUnisons notes).notes =
    sort ((groupsBy sharesKey notes).flatMap alternating) := by
  rw [separateUnisons]
  simp only [List.flatMap_map, List.map_flatMap]
  rfl

theorem isTimed_of_mem_alternating {notes : List (Note α)} (h : ∀ n ∈ notes, isTimed n = true) :
    ∀ n ∈ (groupsBy sharesKey notes).flatMap alternating, isTimed n = true := by
  intro n hn
  obtain ⟨g, hg, hn⟩ := List.mem_flatMap.mp hn
  obtain ⟨m, hm, hmn⟩ := exists_of_mem_alternating hn
  rw [hmn]
  exact h m ((groupsBy_flatten_perm sharesKey notes).mem_iff.mp
    (List.mem_flatten.mpr ⟨g, hg, hm⟩))

theorem Rearranged.separateUnisons_eq [Lawful α] {xs ys : List (Note α)} (h : Rearranged xs ys) :
    (separateUnisons xs).notes = (separateUnisons ys).notes := by
  rw [notes_separateUnisons, notes_separateUnisons]
  refine Rearranged.sort_eq ⟨isTimed_of_mem_alternating h.left, isTimed_of_mem_alternating h.right,
    fun a _ => ?_⟩
  -- What coincides with a note shares its key.
  have hcoincides (n : Note α) : coincides a n = (coincides a n && sharesKey a n) := by
    rw [coincides, sharesKey]
    cases a.start == n.start <;> cases a.pitch == n.pitch <;> cases a.channel == n.channel <;> rfl
  rw [funext hcoincides, ← List.filter_filter, ← List.filter_filter, filter_alternating,
    filter_alternating, alternating, alternating, h.sortByStart_eq a]

theorem Rearranged.separate_eq [Lawful α] {xs ys : List (Note α)} (h : Rearranged xs ys) :
    (separate xs).notes = (separate ys).notes := by
  rw [separate, separate, h.separateUnisons_eq]

/-! ### Notes that do not begin together at one pitch -/

variable [Lawful α]

theorem isTimed_bound (length : α) (i : Instrument α) {n : Note α} (h : isTimed n = true) :
    isTimed (bound length i n) = true := by
  have hstart : (bound length i n).start =
      Quantity.clamp n.start 0.0 (Quantity.greater 0.0 (length - shortest)) := by
    rw [bound, boundTime]
    dsimp only
    split <;> rfl
  rw [isTimed, hstart, Quantity.clamp]
  split
  · exact Lawful.isNumber_of_isFinite Lawful.isFinite_zero
  · split
    · rename_i hhigh
      exact (Lawful.isNumber_of_lt hhigh).1
    · exact h

section Apart

variable {xs ys : List (Note α)} (hperm : xs.Perm ys) (hx : ∀ n ∈ xs, isTimed n = true)
  (hapart : xs.Pairwise fun a b => ¬beginsWith a b = true)

include hperm hx hapart

theorem filter_beginsWith_eq {a : Note α} (ha : isTimed a = true) :
    xs.filter (beginsWith a) = ys.filter (beginsWith a) := by
  refine filter_eq_of_perm hperm (hapart.imp_of_mem fun {b c} hb hc hbc h => hbc ?_)
  rw [← ties_pitch ha (hx b hb), ← ties_pitch ha (hx c hc)] at h
  rw [← ties_pitch (hx b hb) (hx c hc)]
  exact ordersOn_pitch.ties_of_ties ha (hx b hb) (hx c hc) h.1 h.2

theorem Rearranged.of_perm : Rearranged xs ys where
  left := hx
  right n hn := hx n (hperm.mem_iff.mpr hn)
  ties a ha := by
    have hcoincides (n : Note α) : coincides a n = (a.channel == n.channel && beginsWith a n) := by
      rw [coincides, beginsWith, ← Bool.and_assoc, Bool.and_comm]
    rw [funext hcoincides, ← List.filter_filter, ← List.filter_filter,
      filter_beginsWith_eq hperm hx hapart ha]

theorem sortByPitch_eq_of_perm : sortByPitch xs = sortByPitch ys := by
  have hy : ∀ n ∈ ys, isTimed n = true := fun n hn => hx n (hperm.mem_iff.mpr hn)
  exact ordersOn_pitch.mergeSort_eq_of_ties not_precedesByPitch_eq ties_pitch hx hy
    fun a ha => filter_beginsWith_eq hperm hx hapart ha

theorem monophonic_eq_of_perm : (monophonic xs).notes = (monophonic ys).notes := by
  rw [monophonic, monophonic, sortByPitch_eq_of_perm hperm hx hapart]

end Apart

end Note

/-! ### Parts -/

variable [Lawful α] {i : Instrument α} {s : Settings α}

theorem Reading.isTimed_of_mem_notesOf {candidate : Value α} {n : Note α}
    (h : n ∈ notesOf i s candidate) : n.isTimed = true := by
  rw [notesOf, ← List.filterMap_append] at h
  obtain ⟨raw, -, h⟩ := List.mem_filterMap.mp h
  exact Lawful.isNumber_of_isFinite (Note.onset_of_read? h).2

/-- Notes read in another order are separated alike. -/
theorem Reading.separate_eq_of_perm {r : Reading α} {notes : List (Note α)}
    (hperm : r.notes.Perm notes) (htimed : ∀ n ∈ r.notes, n.isTimed = true)
    (hhits : i.isDrum = true → ∀ n ∈ r.hits, n.isTimed = true)
    (hapart : (r.notes.map (Note.bound s.span i)).Pairwise fun a b => ¬a.beginsWith b = true) :
    (Note.separate ({ r with notes }.snapped i s).notes).notes =
      (Note.separate (r.snapped i s).notes).notes := by
  have hbounded := hperm.map (Note.bound s.span i)
  have hstart : ∀ n ∈ r.notes.map (Note.bound s.span i), n.isTimed = true := by
    intro n hn
    obtain ⟨m, hm, rfl⟩ := List.mem_map.mp hn
    exact Note.isTimed_bound s.span i (htimed m hm)
  have hrearranged := Note.Rearranged.of_perm hbounded hstart hapart
  have htaken : r.taken i s = { r with notes }.taken i s ∨
      Note.Rearranged (r.taken i s) ({ r with notes }.taken i s) := by
    rw [taken, taken]
    by_cases hlong : Note.shortest ≤ s.span
    · rw [if_pos hlong, if_pos hlong]
      by_cases hmono : i.mono = true
      · left
        simp only [hmono, if_true, Note.monophonic_eq_of_perm hbounded hstart hapart]
      · right
        simp only [hmono, if_false, Bool.false_eq_true]
        by_cases hdrum : i.isDrum = true
        · rw [if_pos hdrum, if_pos hdrum]
          exact hrearranged.append (hhits hdrum)
        · rw [if_neg hdrum, if_neg hdrum]
          exact hrearranged
    · exact Or.inl (by rw [if_neg hlong, if_neg hlong])
  rw [snapped, snapped]
  rcases htaken with htaken | htaken
  · rw [htaken]
  · dsimp only
    split
    · exact htaken.separate_eq.symm
    · rw [Harmony.snap, Harmony.snap, htaken.sort_eq]

/-- The notes of a candidate can be listed in any order: if no two of the notes that are read, those
that patterns place included, begin together at one pitch once they are bounded, and the hits of a
drum part begin at numbers, then the bundle stays as it is to the byte. -/
theorem Part.compile_rearranged {candidate : Value α} {raws raws' : List (Value α)}
    (hraws : candidate.find? "notes" = some (.array raws)) (hperm : raws.Perm raws')
    (hapart : ((Reading.notesOf i s candidate).map (Note.bound s.span i)).Pairwise
      fun a b => ¬a.beginsWith b = true)
    (hhits : i.isDrum = true → ∀ n ∈ Reading.hitsOf i s candidate, IsNumber n.start)
    (indent : Int) :
    (compile i s (candidate.set "notes" (.array raws'))).map (fun p => p.bundle.render indent) =
      (compile i s candidate).map (fun p => p.bundle.render indent) := by
  have hobject := Value.isObject_of_find? hraws
  have hnotes : (Reading.notesOf i s candidate).Perm
      (Reading.notesOf i s (candidate.set "notes" (.array raws'))) := by
    rw [Reading.notesOf, Reading.notesOf, Score.elementsOf, Score.elementsOf, hraws,
      Value.find?_set_self hobject]
    simp (disch := decide) only [Pattern.expand_set_of_ne]
    exact (hperm.filterMap _).append_right _
  have hread : Reading.ofCandidate i s (candidate.set "notes" (.array raws')) =
      { Reading.ofCandidate i s candidate with
        notes := Reading.notesOf i s (candidate.set "notes" (.array raws')) } := by
    simp (disch := decide) [Reading.ofCandidate, Reading.hitsOf]
  refine compile_render_congr ?_ (ofScore_congr hread ?_) indent
  · rw [hobject, Value.isObject_set hobject]
  · rw [Score.separated_eq, Score.separated_eq, hread]
    exact Reading.separate_eq_of_perm hnotes (fun n => Reading.isTimed_of_mem_notesOf) hhits hapart

def tapKit : Value Float :=
  .object [("midi", .object [("is_drum", .bool true), ("drum_map", .object [("kick", .number 36)])])]

def kitPlayer : Instrument Float := (Instrument.read? tapKit).get (by decide)

def firstTap : Value Float := .object [("pitch", .number 38), ("start_q", .number 0)]

def secondTap : Value Float := .object [("pitch", .number 38), ("start_q", .number 1)]

/-- Two taps with a kick along with the second one. -/
def taps : Value Float :=
  .object [("notes", .array [firstTap, secondTap]),
    ("drums", .array [.object [("drum", .string "kick"), ("start_q", .number 1)]])]

def fourBeats : Settings Float := { length := 4 }

theorem kitPlayer_taps_rearranged : Instrument.read? tapKit = some kitPlayer ∧
    taps.find? "notes" = some (.array [firstTap, secondTap]) ∧
    [firstTap, secondTap].Perm [secondTap, firstTap] ∧
    ((Reading.notesOf kitPlayer fourBeats taps).map (Note.bound fourBeats.span kitPlayer)).Pairwise
      (fun a b => ¬a.beginsWith b = true) ∧
    (kitPlayer.isDrum = true → ∀ n ∈ Reading.hitsOf kitPlayer fourBeats taps, IsNumber n.start) ∧
    ∀ indent : Int,
      (Part.compile kitPlayer fourBeats (taps.set "notes" (.array [secondTap, firstTap]))).map
          (fun p => p.bundle.render indent) =
        (Part.compile kitPlayer fourBeats taps).map (fun p => p.bundle.render indent) := by
  have hperm : [firstTap, secondTap].Perm [secondTap, firstTap] := .swap _ _ _
  have hapart : ((Reading.notesOf kitPlayer fourBeats taps).map
      (Note.bound fourBeats.span kitPlayer)).Pairwise (fun a b => ¬a.beginsWith b = true) := by
    decide +kernel
  have hhits : ∀ n ∈ Reading.hitsOf kitPlayer fourBeats taps, (n.start == n.start) = true := by
    decide +kernel
  exact ⟨(Option.some_get _).symm, rfl, hperm, hapart, fun _ => hhits,
    Part.compile_rearranged rfl hperm hapart fun _ => hhits⟩

end MusicPart
