import MusicPart.Proofs.ExactTime
import MusicPart.Proofs.RoundingErrors
import MusicPart.Proofs.ShapedCurves

/-!
# Swells

A note is settled if it has enough points in its span, or if each point of its swell has one near
it. Points that are added later do not change this, and curves are left as they are for notes that
are all settled. Shaping settles the notes, so there is nothing to add when the curves are shaped
again; but a swell in binary64 may go beyond the finite times, and an infinite time has no point
near it, not even one at that time.
-/

namespace MusicPart

namespace Dynamics

variable {α : Type} [Quantity α]

/-! ### Settled notes -/

/-- Whether the swell of a note has nothing to add. -/
def Settled (points : List (Point α)) (n : Note α) : Prop :=
  isCovered points n = true ∨ ∀ q ∈ swell n, ∃ p ∈ points, isNear q.time p = true

theorem addMissing_eq_iff {points ps : List (Point α)} :
    addMissing points ps = points ↔ ∀ q ∈ ps, ∃ p ∈ points, isNear q.time p = true := by
  induction ps with
  | nil => exact ⟨fun _ q hq => absurd hq List.not_mem_nil, fun _ => rfl⟩
  | cons p ps ih =>
      rw [addMissing, List.forall_mem_cons, ← List.any_eq_true]
      by_cases hany : points.any (isNear p.time) = true
      · rw [if_pos hany, ih, and_iff_right hany]
      · rw [if_neg hany]
        refine ⟨fun heq => ?_, fun h => absurd h.1 hany⟩
        have hlength := (prefix_addMissing (points ++ [p]) ps).length_le
        rw [heq, List.length_append, List.length_singleton] at hlength
        omega

theorem cover_eq_iff {points : List (Point α)} {n : Note α} :
    cover points n = points ↔ Settled points n := by
  rw [cover, Settled]
  by_cases hcovered : isCovered points n = true
  · rw [if_pos hcovered]
    exact iff_of_true rfl (.inl hcovered)
  · rw [if_neg hcovered, addMissing_eq_iff, or_iff_right hcovered]

/-- Covering adds nothing exactly if all notes are settled. -/
theorem foldl_cover_eq_iff {points : List (Point α)} {notes : List (Note α)} :
    notes.foldl cover points = points ↔ ∀ n ∈ notes, Settled points n := by
  induction notes with
  | nil => exact ⟨fun _ n hn => absurd hn List.not_mem_nil, fun _ => rfl⟩
  | cons n notes ih =>
      rw [List.foldl_cons, List.forall_mem_cons, ← ih, ← cover_eq_iff]
      constructor
      · intro heq
        have hkept := prefix_foldl_cover notes (cover points n)
        rw [heq] at hkept
        have hcover := hkept.eq_of_length_le (prefix_cover points n).length_le
        rw [hcover] at heq
        exact ⟨hcover, heq⟩
      · rintro ⟨hcover, heq⟩
        rw [hcover, heq]

/-- A settled note stays so when points are added. -/
theorem Settled.mono {points points' : List (Point α)} {n : Note α} (h : Settled points n)
    (hsub : points.Subperm points') : Settled points' n := by
  rcases h with hcovered | hnear
  · refine .inl ?_
    rw [isCovered, Bool.or_eq_true, decide_eq_true_eq, decide_eq_true_eq] at hcovered ⊢
    exact hcovered.imp_right fun hcount => hcount.trans (hsub.countP_le _)
  · refine .inr fun q hq => ?_
    obtain ⟨p, hp, hpq⟩ := hnear q hq
    exact ⟨p, hsub.subset hp, hpq⟩

theorem exists_isNear_addMissing {points ps : List (Point α)}
    (hself : ∀ q ∈ ps, isNear q.time q = true) :
    ∀ q ∈ ps, ∃ p ∈ addMissing points ps, isNear q.time p = true := by
  induction ps generalizing points with
  | nil => exact fun q hq => absurd hq List.not_mem_nil
  | cons p ps ih =>
      intro q hq
      rw [addMissing]
      rcases List.mem_cons.mp hq with rfl | hq
      · obtain ⟨p, hp, hnear⟩ : ∃ p ∈ if points.any (isNear q.time) then points else points ++ [q],
            isNear q.time p = true := by
          split
          · rename_i hany
            exact List.any_eq_true.mp hany
          · exact ⟨q, List.mem_append_right _ List.mem_cons_self, hself q List.mem_cons_self⟩
        exact ⟨p, (prefix_addMissing _ ps).subset hp, hnear⟩
      · exact ih (fun q hq => hself q (List.mem_cons_of_mem p hq)) q hq

theorem settled_cover {n : Note α} (hself : ∀ q ∈ swell n, isNear q.time q = true)
    (points : List (Point α)) : Settled (cover points n) n := by
  rw [cover]
  split
  · rename_i hcovered
    exact .inl hcovered
  · exact .inr (exists_isNear_addMissing hself)

/-! ### Shaping again -/

section Shape

variable {c : Controllers α} {length : α} {notes : List (Note α)} {curves : List (Curve α)}

theorem swelled?_eq (hlength : ¬length ≤ 0.0) (hmaps : maps c "dynamics" = true) :
    swelled? c length notes curves =
      if added (pointsOf "dynamics" curves) (notes.foldl cover (pointsOf "dynamics" curves)) = 0 then
        none
      else some (notes.foldl cover (pointsOf "dynamics" curves)) := by
  simp [swelled?, hlength, hmaps]

theorem pointsOf_dynamics_shape : pointsOf "dynamics" (shape c length notes curves).curves =
    ((swelled? c length notes curves).map smooth).getD (pointsOf "dynamics" curves) := by
  rw [shape_eq, pointsOf_update_of_ne (by decide), pointsOf_update]

theorem pointsOf_expression_shape : pointsOf "expression" (shape c length notes curves).curves =
    ((arched? c length curves).map smooth).getD (pointsOf "expression" curves) := by
  rw [shape_eq, pointsOf_update, pointsOf_update_of_ne (by decide)]

/-- The dynamics curve has the points that the notes need, smoothed or not. -/
theorem subperm_pointsOf_shape (hlength : ¬length ≤ 0.0) (hmaps : maps c "dynamics" = true) :
    (notes.foldl cover (pointsOf "dynamics" curves)).Subperm
      (pointsOf "dynamics" (shape c length notes curves).curves) := by
  rw [pointsOf_dynamics_shape, swelled?_eq hlength hmaps]
  split
  · rename_i hadded
    have hkept := prefix_foldl_cover notes (pointsOf "dynamics" curves)
    rw [← hkept.eq_of_length_le (Nat.sub_eq_zero_iff_le.mp hadded)]
    exact List.Subperm.refl _
  · exact subperm_smooth _

theorem settled_pointsOf_shape (hlength : ¬length ≤ 0.0) (hmaps : maps c "dynamics" = true)
    {n : Note α} (hn : n ∈ notes) (hself : ∀ q ∈ swell n, isNear q.time q = true) :
    Settled (pointsOf "dynamics" (shape c length notes curves).curves) n := by
  refine Settled.mono ?_ (subperm_pointsOf_shape hlength hmaps)
  obtain ⟨earlier, later, rfl⟩ := List.append_of_mem hn
  rw [List.foldl_append, List.foldl_cons]
  exact (settled_cover hself _).mono (prefix_foldl_cover later _).sublist.subperm

/-- Shaping curves again for the same notes has nothing to add exactly if it finds all notes
settled. -/
theorem shape_shape_iff :
    let first := shape c length notes curves
    shape c length notes first.curves = ⟨first.curves, {}⟩ ↔
      (¬length ≤ 0.0 → maps c "dynamics" = true →
        ∀ n ∈ notes, Settled (pointsOf "dynamics" first.curves) n) := by
  intro first
  constructor
  · intro hsame hlength hmaps
    have hsub : (notes.foldl cover (pointsOf "dynamics" first.curves)).Subperm
        (pointsOf "dynamics" (shape c length notes first.curves).curves) :=
      subperm_pointsOf_shape hlength hmaps
    rw [hsame] at hsub
    exact foldl_cover_eq_iff.mp ((prefix_foldl_cover _ _).eq_of_length_le hsub.length_le).symm
  · intro hsettled
    have hswelled : swelled? c length notes first.curves = none := by
      by_cases hlength : length ≤ 0.0
      · simp [swelled?, hlength]
      · cases hmaps : maps c "dynamics" with
        | false => exact swelled?_of_unmapped c length notes hmaps
        | true =>
            have hcover := foldl_cover_eq_iff.mpr (hsettled hlength hmaps)
            rw [swelled?_eq hlength hmaps, hcover, added, Nat.sub_self, if_pos rfl]
    have harched : arched? c length first.curves = none := by
      cases hfirst : arched? c length curves with
      | none =>
          rw [arched?, pointsOf_expression_shape, hfirst]
          exact hfirst
      | some points =>
          obtain ⟨-, -, rfl⟩ := arched?_eq_some hfirst
          refine arched?_of_ne_nil c length ?_
          rw [pointsOf_expression_shape, hfirst]
          exact List.ne_nil_of_mem ((subperm_smooth (arch length)).subset List.mem_cons_self)
    rw [shape_eq c length notes first.curves, smoothed, hswelled, harched]
    rfl

end Shape

/-! ### Points near their own times -/

/-- What both arithmetics obey where a point is looked for: one at a finite time is near it, and
none is near another time. -/
class Located (α : Type) [Quantity α] : Prop where
  isNear_self {p : Point α} : Quantity.isFinite p.time = true → isNear p.time p = true
  isFinite_of_isNear {t : α} {p : Point α} : isNear t p = true → Quantity.isFinite t = true

instance : Located Rat where
  isNear_self {p} _ := by
    rw [isNear, Exact.abs_eq, sub_self, abs_zero, window, decide_eq_true_eq]
    norm_num
  isFinite_of_isNear _ := rfl

theorem value?_window : Quantity.value? (window : Float) = some (1 / 8) := by decide +kernel

theorem isNear_self_binary64 {p : Point Float} (h : Quantity.isFinite p.time = true) :
    isNear p.time p = true := by
  have hvalue := Binary64.value?_sub_self h
  have hnot : ¬p.time - p.time < 0.0 := by
    rw [Binary64.lt_iff_of_value? hvalue Binary64.value?_zero]
    exact lt_irrefl 0
  rw [isNear, Quantity.abs, if_neg hnot, decide_eq_true_eq,
    Binary64.lt_iff_of_value? hvalue value?_window]
  norm_num

/-- An infinite time differs by no finite number from any time, itself included. -/
theorem isFinite_of_isNear_binary64 {t : Float} {p : Point Float} (h : isNear t p = true) :
    Quantity.isFinite t = true := by
  rw [isNear, decide_eq_true_eq] at h
  have hnumber : Quantity.IsNumber (p.time - t) := by
    have hnumber := (Quantity.Lawful.isNumber_of_lt h).1
    rw [Quantity.abs] at hnumber
    split at hnumber
    · exact Binary64.isNumber_neg.mp hnumber
    · exact hnumber
  obtain ⟨r, hr, -⟩ := Binary64.exists_value?_of_not_lt_abs hnumber value?_window
    (Quantity.Lawful.not_lt_of_lt h)
  have hfinite : Quantity.isFinite (p.time - t) = true :=
    Binary64.isFinite_iff.mpr (Binary64.value?_eq_some.mp hr).1
  exact Binary64.isFinite_of_isFinite_sub hfinite

instance : Located Float := ⟨isNear_self_binary64, isFinite_of_isNear_binary64⟩

/-- Shaping the dynamics of a part twice is the same as shaping them once, and the second time
nothing is added, exactly if each note has its points in its span already or the points of its swell
have finite times. The points at other times are added again each time. -/
theorem shape_idempotent_iff [Located α] (c : Controllers α) (length : α) (notes : List (Note α))
    (curves : List (Curve α)) :
    let first := shape c length notes curves
    shape c length notes first.curves = ⟨first.curves, {}⟩ ↔
      (¬length ≤ 0.0 → maps c "dynamics" = true → ∀ n ∈ notes,
        isCovered (pointsOf "dynamics" first.curves) n = true ∨
          ∀ p ∈ swell n, Quantity.isFinite p.time = true) := by
  refine shape_shape_iff.trans (forall₂_congr fun hlength hmaps => forall₂_congr fun n hn => ?_)
  constructor
  · refine Or.imp_right fun hnear q hq => ?_
    obtain ⟨p, -, hpq⟩ := hnear q hq
    exact Located.isFinite_of_isNear hpq
  · rintro (hcovered | hfinite)
    · exact .inl hcovered
    · exact settled_pointsOf_shape hlength hmaps hn fun q hq => Located.isNear_self (hfinite q hq)

/-- A player whose dynamics are followed by a controller. -/
def swellingPlayer : Controllers Float := ⟨[("dynamics", 1)], Instrument.plainSmoothing⟩

/-- A tone that begins at the greatest finite time and does not end at a finite one. -/
def lastTone : Note Float := ⟨1.7976931348623157e308, 1.2e292, 60, 40, 1, []⟩

/-- The last point of the swell is added each time. -/
theorem lastTone_shape_ne :
    let first := shape swellingPlayer 4.0 [lastTone] []
    shape swellingPlayer 4.0 [lastTone] first.curves ≠ ⟨first.curves, {}⟩ := by
  intro first hsame
  have hlength : ¬(4.0 : Float) ≤ 0.0 := by decide +kernel
  have hmaps : maps swellingPlayer "dynamics" = true := by decide +kernel
  have hpoints : ¬isCovered (pointsOf "dynamics" first.curves) lastTone = true := by
    have hadded : ¬added (pointsOf "dynamics" ([] : List (Curve Float)))
        ([lastTone].foldl cover (pointsOf "dynamics" [])) = 0 := by decide +kernel
    have hsorted : Curve.sortPoints ([lastTone].foldl cover (pointsOf "dynamics" [])) =
        [lastTone].foldl cover (pointsOf "dynamics" []) :=
      List.mergeSort_of_pairwise (by decide +kernel)
    rw [pointsOf_dynamics_shape, swelled?_eq hlength hmaps, if_neg hadded, Option.map_some,
      Option.getD_some, smooth, hsorted]
    decide +kernel
  rcases (shape_idempotent_iff _ _ _ _).mp hsame hlength hmaps lastTone List.mem_cons_self with
    hcovered | hfinite
  · exact hpoints hcovered
  · exact absurd hfinite (by decide +kernel)

/-- In exact arithmetic all times are finite. -/
theorem shape_shape_exact (c : Controllers Rat) (length : Rat) (notes : List (Note Rat))
    (curves : List (Curve Rat)) :
    let first := shape c length notes curves
    shape c length notes first.curves = ⟨first.curves, {}⟩ :=
  shape_shape_iff.mpr fun hlength hmaps _ hn =>
    settled_pointsOf_shape hlength hmaps hn fun _ _ => Located.isNear_self rfl

end Dynamics

end MusicPart
