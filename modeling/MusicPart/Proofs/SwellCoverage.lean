import MusicPart.Proofs.Swells

/-!
# Coverage by swells

A note that is long enough for a swell has at least the points of a swell in its span, but for the
first and the last one. Either is left out where a point stands near its time, and this may be a
point outside the span: one just before the onset, of the note before for instance, or one just
after the end.
-/

namespace MusicPart

/-! ### Counting -/

/-- Things far from each other, each with an element near it, are no more than those elements. -/
theorem length_le_countP {β γ : Type} (near : β → γ → Prop) {q : γ → Bool} {bs : List β}
    {xs : List γ} (hnear : ∀ b ∈ bs, ∃ x ∈ xs, near b x ∧ q x = true)
    (hapart : bs.Pairwise fun a b => ∀ x, near a x → ¬near b x) : bs.length ≤ xs.countP q := by
  cases bs with
  | nil => exact Nat.zero_le _
  | cons b bs =>
      have : Nonempty γ := (hnear b List.mem_cons_self).nonempty
      choose! f hf using hnear
      have hnodup : ((b :: bs).map f).Nodup := by
        refine List.pairwise_map.mpr (hapart.imp_of_mem fun ha hb hfar heq => ?_)
        exact hfar _ (hf _ ha).2.1 (heq ▸ (hf _ hb).2.1)
      have hsubset : (b :: bs).map f ⊆ xs.filter q := by
        intro x hx
        obtain ⟨a, ha, rfl⟩ := List.mem_map.mp hx
        exact List.mem_filter.mpr ⟨(hf a ha).1, (hf a ha).2.2⟩
      have hlength := (List.subperm_of_subset hnodup hsubset).length_le
      rwa [List.length_map, ← List.countP_eq_length_filter] at hlength

theorem countP_cons_append_singleton {β : Type} (f : β → Bool) (a z : β) (bs : List β) :
    (a :: (bs ++ [z])).countP f = (f a).toNat + bs.countP f + (f z).toNat := by
  rw [List.countP_cons, List.countP_append, List.countP_singleton, Bool.toNat, Bool.toNat,
    Bool.cond_eq_ite, Bool.cond_eq_ite]
  omega

namespace Dynamics

section

variable {α : Type} [Quantity α]

/-! ### Points outside a span -/

/-- Whether a point stands before the span of a note, near its onset. -/
def leadsIn (n : Note α) (p : Point α) : Bool :=
  p.time < n.start - Note.slack && isNear n.start p

/-- Whether a point stands after the span of a note, near the last point of its swell. -/
def trails (n : Note α) (p : Point α) : Bool :=
  n.finish + Note.slack < p.time && isNear (n.start + n.duration * 0.9) p

/-- Whether a point of a swell has one near it in the span of the note. -/
def isServed (n : Note α) (points : List (Point α)) (q : Point α) : Bool :=
  points.any fun p => isNear q.time p && isWithin n p

theorem mem_addMissing {points ps : List (Point α)} {p : Point α}
    (h : p ∈ addMissing points ps) : p ∈ points ∨ p ∈ ps := by
  induction ps generalizing points with
  | nil => exact .inl h
  | cons q ps ih =>
      rw [addMissing] at h
      rcases ih h with h | h
      · split at h
        · exact .inl h
        · rcases List.mem_append.mp h with h | h
          · exact .inl h
          · exact .inr (List.mem_cons.mpr (.inl (List.mem_singleton.mp h)))
      · exact .inr (List.mem_cons_of_mem q h)

/-- What covering adds are points of swells. -/
theorem mem_foldl_cover {points : List (Point α)} {notes : List (Note α)} {p : Point α}
    (h : p ∈ notes.foldl cover points) : p ∈ points ++ notes.flatMap swell := by
  induction notes generalizing points with
  | nil => exact List.mem_append_left _ h
  | cons n notes ih =>
      rw [List.flatMap_cons]
      rcases List.mem_append.mp (ih h) with h | h
      · rw [cover] at h
        split at h
        · exact List.mem_append_left _ h
        · rcases mem_addMissing h with h | h
          · exact List.mem_append_left _ h
          · exact List.mem_append_right _ (List.mem_append_left _ h)
      · exact List.mem_append_right _ (List.mem_append_right _ h)

end

/-! ### Swells in exact arithmetic -/

theorem isNear_iff {t : Rat} {p : Point Rat} : isNear t p = true ↔ |p.time - t| < 1 / 8 := by
  rw [isNear, Exact.abs_eq, window, decide_eq_true_eq]
  norm_num

theorem isWithin_iff {n : Note Rat} {p : Point Rat} : isWithin n p = true ↔
    n.start - 1 / 10 ^ 9 ≤ p.time ∧ p.time ≤ n.start + n.duration + 1 / 10 ^ 9 := by
  rw [isWithin, Note.finish, Note.slack_eq, Bool.and_eq_true, decide_eq_true_eq, decide_eq_true_eq]

/-- The points of a swell: one at the onset, one or two in the middle, and one before the end. -/
theorem exists_swell_eq (n : Note Rat) : ∃ first middle last,
    swell n = first :: (middle ++ [last]) ∧ first.time = n.start ∧
      last.time = n.start + n.duration * 0.9 ∧
      ∀ q ∈ middle, q.time = n.start + n.duration * 0.35 ∨
        q.time = n.start + n.duration * 0.75 := by
  rw [swell, swellShape]
  cases isLong n with
  | true => exact ⟨_, [_, _], _, rfl, by norm_num, rfl, by simp⟩
  | false => exact ⟨_, [_], _, rfl, by norm_num, rfl, by simp⟩

theorem length_swell (n : Note Rat) : (swell n).length = if isLong n then 4 else 3 := by
  rw [swell, swellShape, List.length_map]
  cases isLong n <;> rfl

section Swell

variable {n : Note Rat} (hn : 1 - 1 / 10 ^ 9 ≤ n.duration)

include hn

theorem isWithin_of_mem_swell {q : Point Rat} (hq : q ∈ swell n) : isWithin n q = true := by
  obtain ⟨first, middle, last, hswell, hfirst, hlast, hmiddle⟩ := exists_swell_eq n
  rw [isWithin_iff]
  rw [hswell, List.mem_cons, List.mem_append, List.mem_singleton] at hq
  rcases hq with rfl | hq | rfl
  · constructor <;> linarith
  · rcases hmiddle q hq with h | h <;> constructor <;> linarith
  · constructor <;> linarith

theorem pairwise_swell : (swell n).Pairwise fun p q => p.time + 1 / 4 ≤ q.time := by
  rw [swell, swellShape, List.pairwise_map]
  cases hlong : isLong n with
  | true =>
      have hlong : 2 - 1 / 10 ^ 9 ≤ n.duration := by
        rw [isLong, shortestDecay, Note.slack_eq, decide_eq_true_eq] at hlong
        linarith
      norm_num [List.pairwise_cons]
      refine ⟨⟨?_, ?_, ?_⟩, ⟨?_, ?_⟩, ?_⟩ <;> linarith
  | false =>
      norm_num [List.pairwise_cons]
      refine ⟨⟨?_, ?_⟩, ?_⟩ <;> linarith

/-- A point near one of a swell is in the span, unless it is near the first one and before the
span, or near the last one and after it. -/
theorem isWithin_or_of_isNear {q p : Point Rat} (hq : q ∈ swell n)
    (hp : isNear q.time p = true) : isWithin n p = true ∨
      q.time = n.start ∧ leadsIn n p = true ∨
        q.time = n.start + n.duration * 0.9 ∧ trails n p = true := by
  obtain ⟨first, middle, last, hswell, hfirst, hlast, hmiddle⟩ := exists_swell_eq n
  have hdistance := abs_lt.mp (isNear_iff.mp hp)
  rw [hswell, List.mem_cons, List.mem_append, List.mem_singleton] at hq
  rw [isWithin_iff]
  rcases hq with rfl | hq | rfl
  · by_cases hbefore : p.time < n.start - 1 / 10 ^ 9
    · refine .inr (.inl ⟨hfirst, ?_⟩)
      rw [leadsIn, Note.slack_eq, Bool.and_eq_true, decide_eq_true_eq, ← hfirst]
      exact ⟨hfirst ▸ hbefore, hp⟩
    · refine .inl ⟨not_lt.mp hbefore, ?_⟩
      linarith
  · refine .inl ?_
    rcases hmiddle q hq with h | h <;> constructor <;> linarith
  · by_cases hafter : n.start + n.duration + 1 / 10 ^ 9 < p.time
    · refine .inr (.inr ⟨hlast, ?_⟩)
      rw [trails, Note.finish, Note.slack_eq, Bool.and_eq_true, decide_eq_true_eq, ← hlast]
      exact ⟨hafter, hp⟩
    · refine .inl ⟨?_, not_lt.mp hafter⟩
      linarith

variable (points : List (Point Rat))

theorem countP_isServed_le (after : List (Point Rat)) :
    (swell n).countP (isServed n after) ≤ after.countP (isWithin n) := by
  rw [List.countP_eq_length_filter]
  refine length_le_countP (fun q p => isNear q.time p = true) (fun q hq => ?_) ?_
  · obtain ⟨p, hp, h⟩ := List.any_eq_true.mp (List.mem_filter.mp hq).2
    exact ⟨p, hp, Bool.and_eq_true_iff.mp h⟩
  · refine ((pairwise_swell hn).filter _).imp fun {a b} hfar p ha hb => ?_
    rw [isNear_iff, abs_lt] at ha hb
    linarith

/-- Once a swell is added, each of its points has one near it in the span, unless it was left out for
one outside the span that had been there before. -/
theorem isServed_addMissing {q : Point Rat} (hq : q ∈ swell n) :
    isServed n (addMissing points (swell n)) q = true ∨
      q.time = n.start ∧ points.any (leadsIn n) = true ∨
        q.time = n.start + n.duration * 0.9 ∧ points.any (trails n) = true := by
  obtain ⟨p, hp, hnear⟩ := exists_isNear_addMissing (fun q _ => Located.isNear_self rfl) q hq
  by_cases hwithin : isWithin n p = true
  · exact .inl (List.any_eq_true.mpr ⟨p, hp, Bool.and_eq_true_iff.mpr ⟨hnear, hwithin⟩⟩)
  · have hmem : p ∈ points :=
      (mem_addMissing hp).resolve_right fun h => hwithin (isWithin_of_mem_swell hn h)
    rcases (isWithin_or_of_isNear hn hq hnear).resolve_left hwithin with ⟨hq, h⟩ | ⟨hq, h⟩
    · exact .inr (.inl ⟨hq, List.any_eq_true.mpr ⟨p, hmem, h⟩⟩)
    · exact .inr (.inr ⟨hq, List.any_eq_true.mpr ⟨p, hmem, h⟩⟩)

/-- Once its swell is added, a note has as many points in its span as the swell, less the first one
and the last one where points outside the span were near them. -/
theorem length_swell_le : (swell n).length ≤
    (addMissing points (swell n)).countP (isWithin n) + (points.any (leadsIn n)).toNat +
      (points.any (trails n)).toNat := by
  have hserved {q : Point Rat} (hq : q ∈ swell n) := isServed_addMissing hn points hq
  have hcount := countP_isServed_le hn (addMissing points (swell n))
  obtain ⟨first, middle, last, hswell, hfirst, hlast, hmiddle⟩ := exists_swell_eq n
  have hends : first ∈ swell n ∧ (∀ q ∈ middle, q ∈ swell n) ∧ last ∈ swell n := by
    rw [hswell]
    simp +contextual
  generalize isServed n (addMissing points (swell n)) = served at hserved hcount
  have hservedFirst : 1 ≤ (served first).toNat + (points.any (leadsIn n)).toNat := by
    rcases hserved hends.1 with h | ⟨-, h⟩ | ⟨h, -⟩
    · simp [h]
    · simp [h]
    · linarith
  have hservedMiddle : middle.countP served = middle.length := by
    refine List.countP_eq_length.mpr fun q hq => ?_
    rcases hserved (hends.2.1 q hq) with h | ⟨h, -⟩ | ⟨h, -⟩
    · exact h
    · rcases hmiddle q hq with hq | hq <;> linarith
    · rcases hmiddle q hq with hq | hq <;> linarith
  have hservedLast : 1 ≤ (served last).toNat + (points.any (trails n)).toNat := by
    rcases hserved hends.2.2 with h | ⟨h, -⟩ | ⟨-, h⟩
    · simp [h]
    · linarith
    · simp [h]
  have hlength : (swell n).length = middle.length + 2 := by
    rw [hswell, List.length_cons, List.length_append]
    rfl
  rw [hswell, countP_cons_append_singleton, hservedMiddle, ← hswell] at hcount
  omega

theorem length_swell_le_cover : (swell n).length ≤
    (cover points n).countP (isWithin n) + (points.any (leadsIn n)).toNat +
      (points.any (trails n)).toNat := by
  rw [cover]
  split
  · rename_i hcovered
    have hlong : ¬n.duration < shortestSwell - Note.slack := by
      rw [shortestSwell, Note.slack_eq, Exact.one_eq, not_lt]
      exact hn
    rw [isCovered, decide_eq_false hlong, Bool.false_or, decide_eq_true_eq] at hcovered
    rw [length_swell]
    omega
  · exact length_swell_le hn points

end Swell

theorem duration_lt_of_trails {n : Note Rat} {p : Point Rat} (h : trails n p = true) :
    n.duration < 5 / 4 := by
  rw [trails, Note.finish, Note.slack_eq, Bool.and_eq_true, decide_eq_true_eq, isNear_iff,
    abs_lt] at h
  obtain ⟨hafter, -, hnear⟩ := h
  linarith

/-! ### Shaped dynamics -/

/-- A note of a quarter or more has at least three points of the dynamics curve in its span, and one
of two quarters or more has four. There is one less if a point stands just before the span, and one
less if a point stands just after it, near the last point of the swell. Such a point is one that the
curve had before, or one of the swell of an earlier note. -/
theorem le_countP_isWithin_shape (c : Controllers Rat) {length : Rat} (hlength : 0 < length)
    (hmaps : maps c "dynamics" = true) (curves : List (Curve Rat)) (earlier later : List (Note Rat))
    {n : Note Rat} (hn : 1 ≤ n.duration) :
    let before := pointsOf "dynamics" curves ++ earlier.flatMap swell
    let after := pointsOf "dynamics" (shape c length (earlier ++ n :: later) curves).curves
    (if 2 ≤ n.duration then 4 else 3) ≤ after.countP (isWithin n) +
        (before.any (leadsIn n)).toNat + (before.any (trails n)).toNat ∧
      (before.any (trails n) = true → n.duration < 5 / 4) := by
  intro before after
  set points := earlier.foldl cover (pointsOf "dynamics" curves) with hpoints
  have hany (f : Point Rat → Bool) : (points.any f).toNat ≤ (before.any f).toNat := by
    cases hf : points.any f with
    | false => exact Nat.zero_le _
    | true =>
        obtain ⟨p, hp, h⟩ := List.any_eq_true.mp hf
        rw [List.any_eq_true.mpr ⟨p, mem_foldl_cover hp, h⟩]
  have hkept : (cover points n).countP (isWithin n) ≤ after.countP (isWithin n) := by
    have hlength : ¬length ≤ 0.0 := by rwa [Exact.zero_eq, not_le]
    have hsub : ((earlier ++ n :: later).foldl cover (pointsOf "dynamics" curves)).Subperm after :=
      subperm_pointsOf_shape hlength hmaps
    rw [List.foldl_append, List.foldl_cons, ← hpoints] at hsub
    exact ((prefix_foldl_cover later _).sublist.subperm.trans hsub).countP_le _
  have hswell : (if 2 ≤ n.duration then 4 else 3) ≤ (swell n).length := by
    rw [length_swell]
    split
    · rename_i hlong
      have hlong : isLong n = true := by
        rw [isLong, shortestDecay, Note.slack_eq, decide_eq_true_eq]
        linarith
      rw [if_pos hlong]
    · split <;> omega
  have hcover := length_swell_le_cover (by linarith : 1 - 1 / 10 ^ 9 ≤ n.duration) points
  refine ⟨?_, fun htrails => ?_⟩
  · have hleads := hany (leadsIn n)
    have htrails := hany (trails n)
    omega
  · obtain ⟨p, -, h⟩ := List.any_eq_true.mp htrails
    exact duration_lt_of_trails h

/-- A player whose dynamics are followed by a controller. -/
def dynamicPlayer : Controllers Rat := ⟨[("dynamics", 1)], Instrument.plainSmoothing⟩

def softTone (start : Rat) : Note Rat := ⟨start, 1, 60, 40, 1, []⟩

/-- The last point of the first swell is near the onset of the second tone. -/
def softTones : List (Note Rat) := [softTone 0, softTone 1]

theorem maps_dynamicPlayer : maps dynamicPlayer "dynamics" = true := by decide +kernel

theorem countP_softTones :
    (pointsOf "dynamics" (shape dynamicPlayer 4 softTones []).curves).countP
      (isWithin (softTone 1)) = 2 := by
  have hadded : ¬added (pointsOf "dynamics" ([] : List (Curve Rat)))
      (softTones.foldl cover (pointsOf "dynamics" [])) = 0 := by decide +kernel
  have hsorted : Curve.sortPoints (softTones.foldl cover (pointsOf "dynamics" [])) =
      softTones.foldl cover (pointsOf "dynamics" []) :=
    List.mergeSort_of_pairwise (by decide +kernel)
  rw [pointsOf_dynamics_shape, swelled?_eq (by norm_num) maps_dynamicPlayer, if_neg hadded,
    Option.map_some, Option.getD_some, smooth, hsorted]
  decide +kernel

/-- Notes of a quarter or more need not have as many points as a swell. -/
theorem softTones_uncovered : ¬∀ (c : Controllers Rat) (length : Rat) (notes : List (Note Rat))
    (curves : List (Curve Rat)), 0 < length → maps c "dynamics" = true → ∀ n ∈ notes,
      let after := pointsOf "dynamics" (shape c length notes curves).curves
      (1 ≤ n.duration → 3 ≤ after.countP (isWithin n)) ∧
        (2 ≤ n.duration → 4 ≤ after.countP (isWithin n)) := by
  intro h
  obtain ⟨hthree, -⟩ := h dynamicPlayer 4 softTones [] (by norm_num) maps_dynamicPlayer
    (softTone 1) (List.mem_cons_of_mem _ List.mem_cons_self)
  have hcount := hthree le_rfl
  rw [countP_softTones] at hcount
  omega

theorem softTones_nearlyCovered : (0 : Rat) < 4 ∧ maps dynamicPlayer "dynamics" = true ∧
    1 ≤ (softTone 1).duration ∧
      3 ≤ (pointsOf "dynamics" (shape dynamicPlayer 4 softTones []).curves).countP
        (isWithin (softTone 1)) + 1 := by
  have hlength : (0 : Rat) < 4 := by norm_num
  obtain ⟨hcovered, -⟩ := le_countP_isWithin_shape dynamicPlayer hlength maps_dynamicPlayer []
    [softTone 0] [] (n := softTone 1) le_rfl
  have hleads : ((pointsOf "dynamics" [] ++ [softTone 0].flatMap swell).any
      (leadsIn (softTone 1))).toNat = 1 := by decide +kernel
  have htrails : ((pointsOf "dynamics" [] ++ [softTone 0].flatMap swell).any
      (trails (softTone 1))).toNat = 0 := by decide +kernel
  have hshort : ¬2 ≤ (softTone 1).duration := by
    rw [softTone]
    norm_num
  rw [hleads, htrails, if_neg hshort] at hcovered
  exact ⟨hlength, maps_dynamicPlayer, le_rfl, hcovered⟩

end Dynamics

end MusicPart
