import Mathlib
import MusicPart.Dynamics

/-!
# Shaped curves

Shaping the dynamics of a part adds to its curves and takes nothing away. At most two curves change,
the first ones of their names; each stays in its place, and a missing one comes after all others.
Points are added to the dynamics curve between those it has, and to an expression curve only where
there are none.
-/

namespace MusicPart.Dynamics

variable {α : Type}

/-! ### The first curve of a name -/

/-- The index of the first curve of a name, or the number of curves if there is none. -/
def firstOf (name : Text) (curves : List (Curve α)) : Nat := curves.findIdx (isNamed name)

/-- Gives points to the first curve of a name, or to a new one, if there are any to give. -/
def update (i : Interpolation) (name : Text) :
    Option (List (Point α)) → List (Curve α) → List (Curve α)
  | none, curves => curves
  | some points, curves => setPoints i name points curves

theorem firstOf_eq (name : Text) (curves : List (Curve α)) :
    firstOf name curves = (curves.map (·.name)).findIdx (· == name) := by
  rw [List.findIdx_map]
  rfl

theorem firstOf_cons (name : Text) (c : Curve α) (curves : List (Curve α)) :
    firstOf name (c :: curves) = if isNamed name c then 0 else firstOf name curves + 1 := by
  rw [firstOf, List.findIdx_cons]
  cases isNamed name c <;> rfl

section SetPoints

variable (i : Interpolation) (name : Text) (points : List (Point α)) (curves : List (Curve α))

theorem getElem?_setPoints_of_ne {k : Nat} (hk : k < curves.length) (h : k ≠ firstOf name curves) :
    (setPoints i name points curves)[k]? = curves[k]? := by
  induction curves generalizing k with
  | nil => exact absurd hk (Nat.not_lt_zero k)
  | cons c curves ih =>
      rw [firstOf_cons] at h
      rw [setPoints]
      split
      · rename_i hname
        rw [if_pos hname] at h
        obtain ⟨k, rfl⟩ := Nat.exists_eq_succ_of_ne_zero h
        rfl
      · rename_i hname
        rw [if_neg hname] at h
        cases k with
        | zero => rfl
        | succ k => exact ih (Nat.lt_of_succ_lt_succ hk) fun hfirst => h (congrArg _ hfirst)

theorem getElem?_setPoints_firstOf {c : Curve α} (h : curves[firstOf name curves]? = some c) :
    (setPoints i name points curves)[firstOf name curves]? = some { c with points } := by
  induction curves with
  | nil => cases h
  | cons c' curves ih =>
      rw [firstOf_cons] at h ⊢
      rw [setPoints]
      split
      · rename_i hname
        rw [if_pos hname, List.getElem?_cons_zero] at h
        cases h
        rfl
      · rename_i hname
        rw [if_neg hname, List.getElem?_cons_succ] at h
        exact ih h

theorem names_setPoints : (setPoints i name points curves).map (·.name) =
    curves.map (·.name) ++ if name ∈ curves.map (·.name) then [] else [name] := by
  induction curves with
  | nil => rfl
  | cons c curves ih =>
      rw [setPoints]
      split
      · rename_i hname
        have hname : c.name = name := eq_of_beq hname
        rw [List.map_cons, List.map_cons, if_pos (hname ▸ List.mem_cons_self), List.append_nil]
      · rename_i hname
        have hne : name ≠ c.name := fun h => hname (beq_of_eq h.symm)
        have hmem : name ∈ c.name :: curves.map (·.name) ↔ name ∈ curves.map (·.name) := by
          rw [List.mem_cons, or_iff_right hne]
        rw [List.map_cons, ih, List.map_cons, List.cons_append, if_congr hmem rfl rfl]

theorem pointsOf_setPoints : pointsOf name (setPoints i name points curves) = points := by
  rw [pointsOf]
  induction curves with
  | nil =>
      have hname : isNamed name (⟨name, i, false, points⟩ : Curve α) = true := beq_self_eq_true name
      rw [setPoints, List.find?_cons, hname]
      rfl
  | cons c curves ih =>
      rw [setPoints]
      split
      · rename_i hname
        have hname' : isNamed name { c with points } = true := hname
        rw [List.find?_cons, hname']
        rfl
      · rename_i hname
        rw [Bool.not_eq_true] at hname
        rw [List.find?_cons, hname]
        exact ih

end SetPoints

theorem pointsOf_setPoints_of_ne {name other : Text} (h : name ≠ other) (i : Interpolation)
    (points : List (Point α)) (curves : List (Curve α)) :
    pointsOf other (setPoints i name points curves) = pointsOf other curves := by
  induction curves with
  | nil =>
      have hne : isNamed other (⟨name, i, false, points⟩ : Curve α) = false := beq_false_of_ne h
      rw [setPoints, pointsOf, List.find?_cons, hne]
      rfl
  | cons c curves ih =>
      rw [pointsOf, pointsOf] at ih ⊢
      rw [setPoints]
      split
      · rename_i hc
        have hname : c.name = name := eq_of_beq hc
        have hne : isNamed other c = false := beq_false_of_ne (hname ▸ h)
        have hne' : isNamed other { c with points } = false := hne
        rw [List.find?_cons, List.find?_cons, hne, hne']
      · rw [List.find?_cons, List.find?_cons]
        split
        · rfl
        · exact ih

section Update

variable {i : Interpolation} {name : Text} {points? : Option (List (Point α))}
  {curves : List (Curve α)}

theorem getElem?_update_of_ne {k : Nat} (hk : k < curves.length) (h : k ≠ firstOf name curves) :
    (update i name points? curves)[k]? = curves[k]? := by
  cases points? with
  | none => rfl
  | some points => exact getElem?_setPoints_of_ne i name points curves hk h

theorem getElem?_update_firstOf {c : Curve α} (h : curves[firstOf name curves]? = some c) :
    (update i name points? curves)[firstOf name curves]? =
      some { c with points := points?.getD c.points } := by
  cases points? with
  | none => exact h
  | some points => exact getElem?_setPoints_firstOf i name points curves h

variable (i name points? curves)

/-- A name is added only together with points, and where it was not there. -/
theorem exists_names_update : ∃ added, (update i name points? curves).map (·.name) =
    curves.map (·.name) ++ added ∧ added.Sublist [name] ∧
      ∀ other ∈ added, points?.isSome = true ∧ other ∉ curves.map (·.name) := by
  cases points? with
  | none => exact ⟨[], (List.append_nil _).symm, List.nil_sublist _, fun _ h => by cases h⟩
  | some points =>
      refine ⟨_, names_setPoints i name points curves, ?_, fun other hother => ?_⟩
      · split
        · exact List.nil_sublist _
        · exact List.Sublist.refl _
      · split at hother
        · cases hother
        · rename_i hname
          rw [List.mem_singleton.mp hother]
          exact ⟨rfl, hname⟩

theorem length_le_update : curves.length ≤ (update i name points? curves).length := by
  obtain ⟨added, hnames, -⟩ := exists_names_update i name points? curves
  have hlength := congrArg List.length hnames
  rw [List.length_append, List.length_map, List.length_map] at hlength
  omega

variable {i name points? curves}

/-- Curves stay the first ones of their names. -/
theorem eq_firstOf_update_iff (other : Text) {k : Nat} (hk : k < curves.length) :
    k = firstOf other (update i name points? curves) ↔ k = firstOf other curves := by
  obtain ⟨added, hnames, -⟩ := exists_names_update i name points? curves
  rw [firstOf_eq, firstOf_eq, hnames, List.findIdx_append, List.length_map]
  split <;> omega

theorem pointsOf_update : pointsOf name (update i name points? curves) =
    points?.getD (pointsOf name curves) := by
  cases points? with
  | none => rfl
  | some points => exact pointsOf_setPoints i name points curves

theorem pointsOf_update_of_ne {other : Text} (h : name ≠ other) :
    pointsOf other (update i name points? curves) = pointsOf other curves := by
  cases points? with
  | none => rfl
  | some points => exact pointsOf_setPoints_of_ne h i points curves

theorem name_of_firstOf {c : Curve α} (h : curves[firstOf name curves]? = some c) :
    c.name = name := by
  rw [firstOf, ← List.find?_eq_getElem?_findIdx] at h
  have hname : isNamed name c = true := List.find?_some h
  exact eq_of_beq hname

theorem firstOf_ne {other : Text} {c : Curve α} (h : curves[firstOf name curves]? = some c)
    (hne : name ≠ other) : firstOf name curves ≠ firstOf other curves := by
  intro heq
  refine hne ?_
  rw [← name_of_firstOf h]
  exact name_of_firstOf (heq ▸ h)

theorem pointsOf_eq {c : Curve α} (h : curves[firstOf name curves]? = some c) :
    pointsOf name curves = c.points := by
  rw [firstOf, ← List.find?_eq_getElem?_findIdx] at h
  rw [pointsOf, h]
  rfl

end Update

/-! ### What shaping does -/

variable [Quantity α]

/-- The dynamics curve with the swells, if there are any to add. -/
def swelled? (c : Controllers α) (length : α) (notes : List (Note α)) (curves : List (Curve α)) :
    Option (List (Point α)) :=
  let before := pointsOf "dynamics" curves
  let covered := notes.foldl cover before
  if !decide (length ≤ 0.0) && maps c "dynamics" && added before covered != 0 then some covered
  else none

/-- The rise and fall of the expression curve, if there is none. -/
def arched? (c : Controllers α) (length : α) (curves : List (Curve α)) : Option (List (Point α)) :=
  if !decide (length ≤ 0.0) && maps c "expression" && (pointsOf "expression" curves).isEmpty then
    some (arch length)
  else none

/-- The curves that are smoothed. -/
def smoothed (c : Controllers α) (length : α) (notes : List (Note α)) (curves : List (Curve α)) :
    List (List (Point α)) :=
  (swelled? c length notes curves).toList ++ (arched? c length curves).toList

/-- Shaping gives points to the dynamics curve if there are swells to add, and to the expression
curve if it has none. -/
theorem shape_eq (c : Controllers α) (length : α) (notes : List (Note α))
    (curves : List (Curve α)) : shape c length notes curves =
      ⟨update c.smoothing.interpolation "expression" ((arched? c length curves).map smooth)
          (update c.smoothing.interpolation "dynamics"
            ((swelled? c length notes curves).map smooth) curves),
        { swell := ((swelled? c length notes curves).map
            (added (pointsOf "dynamics" curves))).getD 0
          expression := (arched? c length curves).isSome
          smoothing := ((smoothed c length notes curves).map
            fun points => added points (smooth points)).sum }⟩ := by
  have hexpression : pointsOf "expression" (setPoints c.smoothing.interpolation "dynamics"
      (smooth (notes.foldl cover (pointsOf "dynamics" curves))) curves) =
      pointsOf "expression" curves := pointsOf_setPoints_of_ne (by decide) _ _ _
  by_cases hlength : length ≤ 0.0
  · simp [shape, smoothed, swelled?, arched?, hlength, update]
  · cases hd : maps c "dynamics" <;> cases he : maps c "expression" <;>
      by_cases hadded : added (pointsOf "dynamics" curves)
        (notes.foldl cover (pointsOf "dynamics" curves)) = 0 <;>
      by_cases hempty : pointsOf "expression" curves = [] <;>
      simp [shape, smoothed, swelled?, arched?, shapeDynamics, shapeExpression, update, *]

theorem swelled?_eq_some {c : Controllers α} {length : α} {notes : List (Note α)}
    {curves : List (Curve α)} {points : List (Point α)}
    (h : swelled? c length notes curves = some points) :
    maps c "dynamics" = true ∧ points = notes.foldl cover (pointsOf "dynamics" curves) := by
  obtain ⟨hshaped, h⟩ | ⟨-, h⟩ := ite_eq_iff.mp h
  · rw [Bool.and_eq_true, Bool.and_eq_true] at hshaped
    exact ⟨hshaped.1.2, (Option.some.inj h).symm⟩
  · cases h

theorem arched?_eq_some {c : Controllers α} {length : α} {curves : List (Curve α)}
    {points : List (Point α)} (h : arched? c length curves = some points) :
    maps c "expression" = true ∧ pointsOf "expression" curves = [] ∧ points = arch length := by
  obtain ⟨hshaped, h⟩ | ⟨-, h⟩ := ite_eq_iff.mp h
  · rw [Bool.and_eq_true, Bool.and_eq_true] at hshaped
    exact ⟨hshaped.1.2, List.isEmpty_iff.mp hshaped.2, (Option.some.inj h).symm⟩
  · cases h

/-! ### Points are only added -/

theorem prefix_addMissing (points ps : List (Point α)) : points <+: addMissing points ps := by
  induction ps generalizing points with
  | nil => exact List.prefix_refl points
  | cons p ps ih =>
      rw [addMissing]
      refine List.IsPrefix.trans ?_ (ih _)
      split
      · exact List.prefix_refl points
      · exact List.prefix_append points [p]

theorem prefix_cover (points : List (Point α)) (n : Note α) : points <+: cover points n := by
  rw [cover]
  split
  · exact List.prefix_refl points
  · exact prefix_addMissing points _

theorem prefix_foldl_cover (notes : List (Note α)) (points : List (Point α)) :
    points <+: notes.foldl cover points := by
  induction notes generalizing points with
  | nil => exact List.prefix_refl points
  | cons n notes ih => exact (prefix_cover points n).trans (ih _)

theorem sublist_fill : ∀ points : List (Point α), points.Sublist (fill points)
  | [] => .slnil
  | [_] => .refl _
  | p :: q :: points =>
      ((sublist_fill (q :: points)).trans (List.sublist_append_right _ _)).cons_cons p

/-- Smoothing keeps every point, as often as it is there. -/
theorem subperm_smooth (points : List (Point α)) : points.Subperm (smooth points) :=
  (List.mergeSort_perm points _).symm.subperm.trans (sublist_fill _).subperm

/-- What shaping keeps of a list of curves. -/
structure Supplements (c : Controllers α) (before after : List (Curve α)) : Prop where
  /-- The curves keep their names and their order. A new one comes last; it is followed by a
  controller, and there was none of its name. -/
  names : ∃ added, after.map (·.name) = before.map (·.name) ++ added ∧
    added.Sublist ["dynamics", "expression"] ∧
      ∀ name ∈ added, maps c name = true ∧ name ∉ before.map (·.name)
  others : ∀ k < before.length, k ≠ firstOf "dynamics" before → k ≠ firstOf "expression" before →
    after[k]? = before[k]?
  dynamics : ∀ curve, before[firstOf "dynamics" before]? = some curve → ∃ points,
    after[firstOf "dynamics" before]? = some { curve with points } ∧
      curve.points.Subperm points ∧ (maps c "dynamics" = false → points = curve.points)
  expression : ∀ curve, before[firstOf "expression" before]? = some curve → ∃ points,
    after[firstOf "expression" before]? = some { curve with points } ∧
      (maps c "expression" = false ∨ curve.points ≠ [] → points = curve.points)

section Supplements

variable (c : Controllers α) (length : α) (notes : List (Note α)) {curves : List (Curve α)}
  {curve : Curve α}

theorem subperm_swelled (h : curves[firstOf "dynamics" curves]? = some curve) :
    curve.points.Subperm (((swelled? c length notes curves).map smooth).getD curve.points) := by
  cases hswelled : swelled? c length notes curves with
  | none => exact List.Subperm.refl _
  | some points =>
      obtain ⟨-, rfl⟩ := swelled?_eq_some hswelled
      rw [pointsOf_eq h]
      exact (prefix_foldl_cover notes curve.points).sublist.subperm.trans (subperm_smooth _)

theorem swelled?_of_unmapped (h : maps c "dynamics" = false) :
    swelled? c length notes curves = none := by
  rw [swelled?, h, Bool.and_false, Bool.false_and]
  rfl

theorem arched?_of_unmapped (h : maps c "expression" = false) :
    arched? c length curves = none := by
  rw [arched?, h, Bool.and_false, Bool.false_and]
  rfl

theorem arched?_of_ne_nil (h : pointsOf "expression" curves ≠ []) :
    arched? c length curves = none := by
  rw [arched?, List.isEmpty_eq_false_iff.mpr h, Bool.and_false]
  rfl

theorem getElem?_shape_of_ne {k : Nat} (hk : k < curves.length)
    (hdynamics : k ≠ firstOf "dynamics" curves) (hexpression : k ≠ firstOf "expression" curves) :
    (shape c length notes curves).curves[k]? = curves[k]? := by
  rw [shape_eq, getElem?_update_of_ne (hk.trans_le (length_le_update _ _ _ _))
    (mt (eq_firstOf_update_iff "expression" hk).mp hexpression), getElem?_update_of_ne hk hdynamics]

theorem getElem?_shape_dynamics (h : curves[firstOf "dynamics" curves]? = some curve) :
    (shape c length notes curves).curves[firstOf "dynamics" curves]? = some { curve with
      points := ((swelled? c length notes curves).map smooth).getD curve.points } := by
  have hlt := (List.getElem?_eq_some_iff.mp h).1
  have hne := firstOf_ne h (by decide : ("dynamics" : Text) ≠ "expression")
  rw [shape_eq, getElem?_update_of_ne (hlt.trans_le (length_le_update _ _ _ _))
    (mt (eq_firstOf_update_iff "expression" hlt).mp hne), getElem?_update_firstOf h]

theorem getElem?_shape_expression (h : curves[firstOf "expression" curves]? = some curve) :
    (shape c length notes curves).curves[firstOf "expression" curves]? = some { curve with
      points := ((arched? c length curves).map smooth).getD curve.points } := by
  have hlt := (List.getElem?_eq_some_iff.mp h).1
  have hne := firstOf_ne h (by decide : ("expression" : Text) ≠ "dynamics")
  have hkept : (update c.smoothing.interpolation "dynamics"
      ((swelled? c length notes curves).map smooth) curves)[firstOf "expression" curves]? =
      some curve := by
    rw [getElem?_update_of_ne hlt hne, h]
  rw [(eq_firstOf_update_iff "expression" hlt).mpr rfl] at hkept
  rw [shape_eq, (eq_firstOf_update_iff "expression" hlt).mpr rfl]
  exact getElem?_update_firstOf hkept

variable (curves)

/-- New curves are followed by controllers, and there were none of their names. -/
theorem exists_names_shape : ∃ added, (shape c length notes curves).curves.map (·.name) =
    curves.map (·.name) ++ added ∧ added.Sublist ["dynamics", "expression"] ∧
      ∀ name ∈ added, maps c name = true ∧ name ∉ curves.map (·.name) := by
  rw [shape_eq]
  obtain ⟨new, hnames, hsub, hnew⟩ := exists_names_update c.smoothing.interpolation "dynamics"
    ((swelled? c length notes curves).map smooth) curves
  obtain ⟨new', hnames', hsub', hnew'⟩ := exists_names_update c.smoothing.interpolation "expression"
    ((arched? c length curves).map smooth) (update c.smoothing.interpolation "dynamics"
      ((swelled? c length notes curves).map smooth) curves)
  refine ⟨new ++ new', by rw [hnames', hnames, List.append_assoc], hsub.append hsub', ?_⟩
  intro name hname
  rcases List.mem_append.mp hname with hname | hname
  · obtain ⟨hsome, hnot⟩ := hnew name hname
    obtain ⟨points, hpoints⟩ := Option.isSome_iff_exists.mp (Option.isSome_map.symm.trans hsome)
    rw [List.mem_singleton.mp (hsub.subset hname)] at hnot ⊢
    exact ⟨(swelled?_eq_some hpoints).1, hnot⟩
  · obtain ⟨hsome, hnot⟩ := hnew' name hname
    obtain ⟨points, hpoints⟩ := Option.isSome_iff_exists.mp (Option.isSome_map.symm.trans hsome)
    rw [List.mem_singleton.mp (hsub'.subset hname)] at hnot ⊢
    rw [hnames] at hnot
    exact ⟨(arched?_eq_some hpoints).1, fun hmem => hnot (List.mem_append_left _ hmem)⟩

/-- Shaping adds points to two curves, or these curves to the others, and changes nothing else. -/
theorem shape_supplements : Supplements c curves (shape c length notes curves).curves := by
  constructor
  case names => exact exists_names_shape c length notes curves
  case others => exact fun k => getElem?_shape_of_ne c length notes
  case dynamics =>
    intro curve hcurve
    refine ⟨_, getElem?_shape_dynamics c length notes hcurve,
      subperm_swelled c length notes hcurve, fun hunmapped => ?_⟩
    rw [swelled?_of_unmapped c length notes hunmapped]
    rfl
  case expression =>
    intro curve hcurve
    refine ⟨_, getElem?_shape_expression c length notes hcurve, ?_⟩
    rintro (hunmapped | hpoints)
    · rw [arched?_of_unmapped c length hunmapped]
      rfl
    · rw [arched?_of_ne_nil c length (by rwa [pointsOf_eq hcurve])]
      rfl

end Supplements

end MusicPart.Dynamics
