import MusicPart.Proofs.Bounds
import MusicPart.Proofs.Differences
import MusicPart.Proofs.Rearranging
import MusicPart.Proofs.Searches

/-!
# The nearest tones

A note that is no tone of the active harmony moves to the tone of the range that is nearest, whatever
the range and the tones are: a tone farther away than an octave has one of its class nearer by, so
that the search within an octave misses none. Of two tones as near as each other the upper one is
taken just if the melody rises to the note.
-/

namespace MusicPart.Harmony

open Pitch (classOf)
open Quantity (Ordered)

/-! ### Tones of a range -/

/-- A pitch of the range whose class is among the tones. -/
def IsTone (range : PitchRange) (tones : List Int) (pitch : Int) : Prop :=
  range.Within pitch ∧ classOf pitch ∈ tones

/-- No tone of the range is nearer to a pitch, and if another one is as near, the tone is the upper
one just if the melody rises. -/
structure IsNearest (range : PitchRange) (tones : List Int) (rising : Bool) (pitch tone : Int) :
    Prop where
  isTone : IsTone range tones tone
  le {other : Int} : IsTone range tones other → |tone - pitch| ≤ |other - pitch|
  tie {other : Int} : IsTone range tones other → other ≠ tone →
    |other - pitch| = |tone - pitch| → (pitch < tone ↔ rising = true)

variable {range : PitchRange} {tones : List Int} {pitch : Int}

theorem fits_iff (hlow : 0 ≤ range.low) (hhigh : range.high ≤ 127) (p : Int) :
    fits range tones p = true ↔ IsTone range tones p := by
  rw [fits, IsTone, PitchRange.contains, PitchRange.Within]
  simp only [Bool.and_eq_true, decide_eq_true_eq, List.contains_iff_mem]
  constructor
  · rintro ⟨⟨-, hin⟩, hclass⟩
    exact ⟨hin, hclass⟩
  · rintro ⟨hin, hclass⟩
    exact ⟨⟨⟨by omega, by omega⟩, hin⟩, hclass⟩

/-- A tone, if there is one, has one of its class less than an octave away. -/
theorem exists_isTone_within (hpitch : range.Within pitch) (hclass : classOf pitch ∉ tones)
    {tone : Int} (h : IsTone range tones tone) : ∃ k : Nat, k < 12 ∧
      (IsTone range tones (pitch + (k + 1)) ∨ IsTone range tones (pitch - (k + 1))) := by
  obtain ⟨hin, htone⟩ := h
  have hne : classOf tone ≠ classOf pitch := fun heq => hclass (heq ▸ htone)
  rw [classOf, classOf] at hne
  rw [PitchRange.Within] at hpitch hin
  rcases le_total pitch tone with hle | hle
  · have hsame : classOf (pitch + (tone - pitch) % 12) = classOf tone := by
      rw [classOf, classOf]
      omega
    refine ⟨((tone - pitch) % 12 - 1).toNat, by omega, Or.inl ?_⟩
    have hstep : pitch + ((((tone - pitch) % 12 - 1).toNat : Int) + 1) =
        pitch + (tone - pitch) % 12 := by omega
    rw [hstep]
    exact ⟨⟨by omega, by omega⟩, hsame ▸ htone⟩
  · have hsame : classOf (pitch - (pitch - tone) % 12) = classOf tone := by
      rw [classOf, classOf]
      omega
    refine ⟨((pitch - tone) % 12 - 1).toNat, by omega, Or.inr ?_⟩
    have hstep : pitch - ((((pitch - tone) % 12 - 1).toNat : Int) + 1) =
        pitch - (pitch - tone) % 12 := by omega
    rw [hstep]
    exact ⟨⟨by omega, by omega⟩, hsame ▸ htone⟩

/-! ### The search -/

/-- The direction of the melody. -/
def toward (rising : Bool) : Int := if rising then 1 else -1

theorem toward_eq (rising : Bool) : toward rising = 1 ∨ toward rising = -1 := by
  cases rising <;> simp [toward]

theorem abs_toward_mul (rising : Bool) (k : Nat) : |toward rising * (k + 1)| = (k : Int) + 1 := by
  have hunit : |toward rising| = 1 := by
    rcases toward_eq rising with h | h <;> rw [h] <;> rfl
  rw [abs_mul, hunit, one_mul, abs_of_nonneg (by omega)]

theorem lt_add_toward_iff {rising : Bool} (k : Nat) :
    pitch < pitch + toward rising * (k + 1) ↔ rising = true := by
  cases rising <;> simp [toward]

/-- The two pitches at a distance, the first of them in the direction. -/
def pair (pitch direction : Int) (k : Nat) : List Int :=
  [pitch + direction * (k + 1), pitch - direction * (k + 1)]

/-- The search stops at the first distance at which a pitch fits. -/
theorem exists_pair_of_nearest? {direction tone : Int}
    (h : nearest? range tones pitch direction = some tone) : ∃ k : Nat,
      (pair pitch direction k).find? (fits range tones) = some tone ∧
        ∀ j < k, (pair pitch direction j).find? (fits range tones) = none := by
  obtain ⟨k, hleast, hfound⟩ := exists_isLeast_of_findSome? h
  refine ⟨k, hfound, fun j hj => ?_⟩
  by_contra hne
  exact hj.not_ge (hleast.2 ⟨hj.trans hleast.1.1, Option.isSome_iff_ne_none.mpr hne⟩)

section Search

variable (hlow : 0 ≤ range.low) (hhigh : range.high ≤ 127)

include hlow hhigh

theorem find?_pair_eq_none_iff {direction : Int} (hdirection : direction = 1 ∨ direction = -1)
    (k : Nat) : (pair pitch direction k).find? (fits range tones) = none ↔
      ¬IsTone range tones (pitch + (k + 1)) ∧ ¬IsTone range tones (pitch - (k + 1)) := by
  rw [pair]
  simp only [List.find?_eq_none, List.mem_cons, List.not_mem_nil, or_false, forall_eq_or_imp,
    forall_eq, fits_iff hlow hhigh]
  rcases hdirection with rfl | rfl
  · rw [one_mul]
  · have hup : pitch + -1 * ((k : Int) + 1) = pitch - (k + 1) := by ring
    have hdown : pitch - -1 * ((k : Int) + 1) = pitch + (k + 1) := by ring
    rw [hup, hdown]
    exact and_comm

variable (hclass : classOf pitch ∉ tones)

include hclass

/-- No tone is nearer than the distance at which the search stops. -/
theorem le_abs_of_isTone {direction : Int} (hdirection : direction = 1 ∨ direction = -1) {k : Nat}
    (hnone : ∀ j < k, (pair pitch direction j).find? (fits range tones) = none) {other : Int}
    (hother : IsTone range tones other) : (k : Int) + 1 ≤ |other - pitch| := by
  have hne : other ≠ pitch := fun heq => hclass (heq ▸ hother.2)
  by_contra hnear
  rw [not_le] at hnear
  have hpos : 0 < |other - pitch| := abs_pos.mpr (sub_ne_zero.mpr hne)
  obtain ⟨hup, hdown⟩ := (find?_pair_eq_none_iff hlow hhigh hdirection
    (|other - pitch| - 1).toNat).mp (hnone _ (by omega))
  have hdistance : (((|other - pitch| - 1).toNat : Int) + 1) = |other - pitch| := by omega
  rw [hdistance] at hup hdown
  rcases abs_choice (other - pitch) with hsame | hsame
  · rw [hsame, add_sub_cancel] at hup
    exact hup hother
  · rw [hsame, sub_neg_eq_add, add_sub_cancel] at hdown
    exact hdown hother

theorem isNearest_of_nearest? {rising : Bool} {tone : Int}
    (h : nearest? range tones pitch (toward rising) = some tone) :
    IsNearest range tones rising pitch tone := by
  obtain ⟨k, hfound, hnone⟩ := exists_pair_of_nearest? h
  have hfar {other : Int} (hother : IsTone range tones other) : (k : Int) + 1 ≤ |other - pitch| :=
    le_abs_of_isTone hlow hhigh hclass (toward_eq rising) hnone hother
  have htone : IsTone range tones tone := (fits_iff hlow hhigh tone).mp (List.find?_some hfound)
  rw [pair] at hfound
  by_cases hfirst : IsTone range tones (pitch + toward rising * (k + 1))
  · rw [List.find?_cons_of_pos ((fits_iff hlow hhigh _).mpr hfirst)] at hfound
    obtain rfl := Option.some.inj hfound
    refine ⟨htone, fun hother => ?_, fun _ _ _ => lt_add_toward_iff k⟩
    rw [add_sub_cancel_left, abs_toward_mul]
    exact hfar hother
  · rw [List.find?_cons_of_neg (mt (fits_iff hlow hhigh _).mp hfirst)] at hfound
    obtain rfl := List.mem_singleton.mp (List.mem_of_find?_eq_some hfound)
    have hdistance : |pitch - toward rising * (k + 1) - pitch| = (k : Int) + 1 := by
      rw [abs_sub_comm, sub_sub_cancel, abs_toward_mul]
    refine ⟨htone, fun hother => hdistance.le.trans (hfar hother), ?_⟩
    intro other hother hne hsame
    -- The only other pitch as near is the first of the two, and it does not fit.
    exfalso
    rcases abs_eq_abs.mp hsame with heq | heq
    · exact hne (by omega)
    · have hmirror : other = pitch + toward rising * (k + 1) := by omega
      exact hfirst (hmirror ▸ hother)

/-- The search misses no tone. -/
theorem nearest?_ne_none (hpitch : range.Within pitch) {tone : Int} (h : IsTone range tones tone)
    {direction : Int} (hdirection : direction = 1 ∨ direction = -1) :
    nearest? range tones pitch direction ≠ none := by
  intro hnone
  obtain ⟨k, hk, hfits⟩ := exists_isTone_within hpitch hclass h
  have hmissed := List.findSome?_eq_none_iff.mp hnone k (List.mem_range.mpr hk)
  have hneither := (find?_pair_eq_none_iff hlow hhigh hdirection k).mp hmissed
  exact hfits.elim hneither.1 hneither.2

theorem isNearest_snapped (hpitch : range.Within pitch) (h : ∃ tone, IsTone range tones tone)
    (rising : Bool) :
    IsNearest range tones rising pitch (snapped range tones pitch (toward rising)) := by
  obtain ⟨tone, htone⟩ := h
  obtain ⟨found, hfound⟩ := Option.ne_none_iff_exists'.mp
    (nearest?_ne_none hlow hhigh hclass hpitch htone (toward_eq rising))
  rw [snapped, hfound, Option.getD_some]
  exact isNearest_of_nearest? hlow hhigh hclass hfound

omit hclass in
theorem snapped_eq_self (hpitch : range.Within pitch) (h : ¬∃ tone, IsTone range tones tone)
    (direction : Int) : snapped range tones pitch direction = pitch := by
  have hnone : nearest? range tones pitch direction = none := by
    refine List.findSome?_eq_none_iff.mpr fun k _ => List.find?_eq_none.mpr fun p _ hfits => ?_
    exact h ⟨p, (fits_iff hlow hhigh p).mp hfits⟩
  rw [PitchRange.Within] at hpitch
  rw [snapped, hnone, Option.getD_none, Midi.clamp_eq _ (by omega)]
  omega

end Search

/-! ### The harmonies about a time -/

section Lookup

variable {α : Type} [Quantity α]

/-- The last harmony of a map that has begun by a time. -/
def active? (map : List (Harmony α)) (time : α) : Option (Harmony α) :=
  (map.filter fun h => h.time ≤ time + Note.slack).getLast?

/-- The first harmony that has not. -/
def next? (map : List (Harmony α)) (time : α) : Option (Harmony α) :=
  map.find? fun h => !decide (h.time ≤ time + Note.slack)

variable [Ordered α] {map : List (Harmony α)}

theorem takeWhile_begun (hmap : map.Pairwise fun g h => g.time ≤ h.time) (bound : α) :
    (map.takeWhile fun h => h.time ≤ bound) = map.filter fun h => h.time ≤ bound := by
  induction hmap with
  | nil => rfl
  | @cons g rest hfirst _ ih =>
      by_cases hbegun : g.time ≤ bound
      · rw [List.takeWhile_cons_of_pos (by simpa), List.filter_cons_of_pos (by simpa), ih]
      · have hlater : ∀ h ∈ rest, ¬h.time ≤ bound := fun h hmem hle =>
          hbegun (Ordered.le_trans (hfirst h hmem) hle)
        rw [List.takeWhile_cons_of_neg (by simpa), List.filter_cons_of_neg (by simpa),
          List.filter_eq_nil_iff.mpr (by simpa)]

theorem active?_eq_none_iff (hmap : map.Pairwise fun g h => g.time ≤ h.time) (time : α) :
    active? map time = none ↔ begun map time = 0 := by
  rw [active?, ← takeWhile_begun hmap, List.getLast?_eq_none_iff, begun, List.length_eq_zero_iff]

theorem active?_eq_getElem? (hmap : map.Pairwise fun g h => g.time ≤ h.time) {time : α}
    {count : Nat} (h : begun map time = count + 1) : active? map time = map[count]? := by
  have hsplit := List.takeWhile_append_dropWhile (l := map)
    (p := fun h => decide (h.time ≤ time + Note.slack))
  rw [begun] at h
  rw [active?, ← takeWhile_begun hmap, List.getLast?_eq_getElem?, h, Nat.add_sub_cancel]
  conv_rhs => rw [← hsplit]
  rw [List.getElem?_append_left (h ▸ count.lt_succ_self)]

omit [Ordered α] in
theorem next?_eq_getElem? (map : List (Harmony α)) (time : α) :
    next? map time = map[begun map time]? := by
  rw [next?, List.find?_not_eq_head?_dropWhile, List.head?_eq_getElem?, begun]
  rw [← Nat.sub_self (map.takeWhile fun h => decide (h.time ≤ time + Note.slack)).length]
  rw [← List.getElem?_append_right le_rfl, List.takeWhile_append_dropWhile]

end Lookup

/-! ### Moves -/

section Moves

variable {α : Type} [Quantity α]

/-- A note stays if no harmony has begun, if it is a tone of the active one, or if it anticipates
the next one. -/
def Stays (map : List (Harmony α)) (n : Note α) : Prop :=
  active? map n.start = none ∨
    (∃ h ∈ active? map n.start, classOf n.pitch ∈ h.tones) ∨
      ∃ h ∈ next? map n.start, 0.0 < h.time - n.start ∧ h.time - n.start ≤ pickup ∧
        classOf n.pitch ∈ h.tones

/-- What a note becomes after a note of the pitch `previous`, if there is one. -/
structure Snaps (map : List (Harmony α)) (range : PitchRange) (previous : Option Int)
    (n m : Note α) : Prop where
  eq : m = { n with pitch := m.pitch }
  stays : Stays map n → m.pitch = n.pitch
  moves {h : Harmony α} : ¬Stays map n → h ∈ active? map n.start →
    (∃ tone, IsTone range h.tones tone) →
      IsNearest range h.tones (previous.any (· < n.pitch)) n.pitch m.pitch
  lacks {h : Harmony α} : h ∈ active? map n.start → (¬∃ tone, IsTone range h.tones tone) →
    m.pitch = n.pitch

theorem anticipates_iff {n : Note α} {next : Option (Harmony α)} : anticipates n next = true ↔
    ∃ h ∈ next, 0.0 < h.time - n.start ∧ h.time - n.start ≤ pickup ∧ classOf n.pitch ∈ h.tones := by
  cases next with
  | none => simp [anticipates]
  | some h => simp [anticipates, and_assoc]

variable [Ordered α] {map : List (Harmony α)} {previous : Option Int} {n : Note α}

theorem moveOf_eq (hmap : map.Pairwise fun g h => g.time ≤ h.time) :
    moveOf map range previous n = (active? map n.start).elim .stay fun h =>
      if h.tones.contains (classOf n.pitch) then .stay
      else if anticipates n (next? map n.start) then .anticipate
      else
        let pitch := snapped range h.tones n.pitch (toward (previous.any (· < n.pitch)))
        if pitch = n.pitch then .stay else .move pitch := by
  rw [moveOf]
  split
  · next hcount => rw [(active?_eq_none_iff hmap _).mpr hcount, Option.elim_none]
  · next count hcount =>
      rw [active?_eq_getElem? hmap hcount, next?_eq_getElem?, hcount]
      cases map[count]? <;> rfl

theorem moved_of_stays (hmap : map.Pairwise fun g h => g.time ≤ h.time) (h : Stays map n) :
    moved n (moveOf map range previous n) = n := by
  rw [moveOf_eq hmap]
  cases hactive : active? map n.start with
  | none => rfl
  | some g =>
      rw [Option.elim_some]
      split
      · rfl
      · next hclass =>
          have hanticipates : anticipates n (next? map n.start) = true := by
            rw [anticipates_iff]
            rcases h with hnone | ⟨g', hg', hmem⟩ | hnext
            · exact absurd (hactive.symm.trans hnone) (Option.some_ne_none g)
            · obtain rfl := Option.some.inj (hactive.symm.trans hg')
              exact absurd (List.contains_iff_mem.mpr hmem) hclass
            · exact hnext
          rw [if_pos hanticipates]
          rfl

theorem moved_of_not_stays (hmap : map.Pairwise fun g h => g.time ≤ h.time) (h : ¬Stays map n)
    {g : Harmony α} (hactive : g ∈ active? map n.start) :
    moved n (moveOf map range previous n) = { n with
      pitch := snapped range g.tones n.pitch (toward (previous.any (· < n.pitch))) } := by
  rw [Stays, not_or, not_or, ← anticipates_iff] at h
  obtain ⟨-, hclass, hnext⟩ := h
  have hclass' : ¬g.tones.contains (classOf n.pitch) = true := fun hmem =>
    hclass ⟨g, hactive, List.contains_iff_mem.mp hmem⟩
  rw [moveOf_eq hmap, Option.mem_def.mp hactive, Option.elim_some, if_neg hclass', if_neg hnext]
  dsimp only
  split
  · next hsame => rw [hsame]; rfl
  · rfl

omit [Ordered α] in
theorem ne_of_moveOf_eq_move {p : Int} (h : moveOf map range previous n = .move p) :
    p ≠ n.pitch := by
  rw [moveOf] at h
  split at h
  · cases h
  · split at h
    · cases h
    · next g _ =>
        dsimp only at h
        generalize snapped range g.tones n.pitch _ = tone at h
        split_ifs at h with _ _ hsame
        exact Move.move.inj h ▸ hsame

omit [Ordered α] in
theorem isCorrection_moveOf (map : List (Harmony α)) (range : PitchRange) (previous : Option Int)
    (n : Note α) : isCorrection (moveOf map range previous n) =
      decide ((moved n (moveOf map range previous n)).pitch ≠ n.pitch) := by
  cases hmove : moveOf map range previous n with
  | stay => simp [isCorrection, moved]
  | anticipate => simp [isCorrection, moved]
  | move p => exact (decide_eq_true (ne_of_moveOf_eq_move hmove)).symm

theorem snaps_moved (hlow : 0 ≤ range.low) (hhigh : range.high ≤ 127)
    (hmap : map.Pairwise fun g h => g.time ≤ h.time) (previous : Option Int)
    (hpitch : range.Within n.pitch) :
    Snaps map range previous n (moved n (moveOf map range previous n)) := by
  by_cases hstays : Stays map n
  · rw [moved_of_stays hmap hstays]
    exact ⟨rfl, fun _ => rfl, fun h => absurd hstays h, fun _ _ => rfl⟩
  · constructor
    case eq => cases moveOf map range previous n <;> rfl
    case stays => exact fun h => absurd h hstays
    case moves =>
      intro g _ hactive htone
      rw [moved_of_not_stays hmap hstays hactive]
      have hclass : classOf n.pitch ∉ g.tones := fun hmem =>
        hstays (Or.inr (Or.inl ⟨g, hactive, hmem⟩))
      exact isNearest_snapped hlow hhigh hclass hpitch htone _
    case lacks =>
      intro g hactive hnone
      rw [moved_of_not_stays hmap hstays hactive]
      exact snapped_eq_self hlow hhigh hpitch hnone _

/-- What the notes become in turn. The melody is that of the pitches before they move. -/
theorem forall₂_snaps (hlow : 0 ≤ range.low) (hhigh : range.high ≤ 127)
    (hmap : map.Pairwise fun g h => g.time ≤ h.time) {notes : List (Note α)}
    (hpitch : ∀ n ∈ notes, range.Within n.pitch) (previous : Option Int) :
    List.Forall₂ (fun p m => Snaps map range p.1 p.2 m)
      ((previous :: notes.map fun n => some n.pitch).zip notes)
      (List.zipWith moved notes (moves map range previous notes)) := by
  induction notes generalizing previous with
  | nil => exact List.Forall₂.nil
  | cons n rest ih =>
      obtain ⟨hfirst, hrest⟩ := List.forall_mem_cons.mp hpitch
      have hsnaps := snaps_moved hlow hhigh hmap previous hfirst
      exact List.Forall₂.cons hsnaps (ih hrest (some n.pitch))

omit [Ordered α] in
theorem countP_isCorrection (map : List (Harmony α)) (range : PitchRange) (notes : List (Note α))
    (previous : Option Int) : (moves map range previous notes).countP isCorrection =
      (notes.zip (List.zipWith moved notes (moves map range previous notes))).countP
        fun p => p.2.pitch ≠ p.1.pitch := by
  induction notes generalizing previous with
  | nil => rfl
  | cons n rest ih =>
      rw [moves, List.zipWith_cons_cons, List.zip_cons_cons, List.countP_cons, List.countP_cons,
        ih (some n.pitch), isCorrection_moveOf]

/-- Notes snap in the order of their onsets, each to the nearest tone of the harmony that is active
when it begins, and the corrections are the notes that change their pitch. -/
theorem snap_nearest (hlow : 0 ≤ range.low) (hhigh : range.high ≤ 127)
    (hmap : map.Pairwise fun g h => g.time ≤ h.time) {notes : List (Note α)}
    (hpitch : ∀ n ∈ notes, range.Within n.pitch) :
    let sorted := Note.sort notes
    let snapped := snap map range notes
    sorted.Perm notes ∧
      ((∀ n ∈ notes, n.isTimed = true) → sorted.Pairwise fun a b => !Note.precedes b a) ∧
      List.Forall₂ (fun p m => Snaps map range p.1 p.2 m)
        ((none :: sorted.map fun n => some n.pitch).zip sorted) snapped.notes ∧
      snapped.corrections = (sorted.zip snapped.notes).countP fun p => p.2.pitch ≠ p.1.pitch := by
  have hperm : (Note.sort notes).Perm notes := List.mergeSort_perm notes _
  refine ⟨hperm, Note.pairwise_sort, ?_, countP_isCorrection map range (Note.sort notes) none⟩
  exact forall₂_snaps hlow hhigh hmap (fun n hn => hpitch n (hperm.subset hn)) none

end Moves

/-- A triad, and the seventh chord that follows it. -/
def cadence : List (Harmony Float) := [⟨0, [0, 4, 7], []⟩, ⟨2, [2, 5, 7, 11], []⟩]

/-- A line that rises to a tone between two of the triad, and then anticipates the seventh chord. -/
def climb : List (Note Float) :=
  [⟨0, 1, 61, 80, 1, []⟩, ⟨1, 0.75, 62, 80, 1, []⟩, ⟨1.75, 0.25, 65, 80, 1, []⟩,
    ⟨2, 1, 66, 80, 1, []⟩]

theorem climb_snap_nearest :
    cadence.Pairwise (fun g h => g.time ≤ h.time) ∧
      (∀ n ∈ climb, PitchRange.Within ⟨36, 76⟩ n.pitch) ∧
      List.Forall₂ (fun p m => Snaps cadence ⟨36, 76⟩ p.1 p.2 m)
        ((none :: (Note.sort climb).map fun n => some n.pitch).zip (Note.sort climb))
        (snap cadence ⟨36, 76⟩ climb).notes := by
  have hmap : cadence.Pairwise (fun g h => g.time ≤ h.time) := by decide
  have hpitch : ∀ n ∈ climb, PitchRange.Within ⟨36, 76⟩ n.pitch := by
    simp [climb, PitchRange.Within]
  exact ⟨hmap, hpitch, (snap_nearest (by decide) (by decide) hmap hpitch).2.2.1⟩

end MusicPart.Harmony
