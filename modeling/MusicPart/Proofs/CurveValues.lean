import MusicPart.Proofs.SmoothedJumps

/-!
# Values of curves

A curve has the value of each breakpoint at its time, and before the first and after the last one it
stays level. At any other time its value is decided by the two breakpoints around it and their
neighbours. A held curve keeps the value of the latest breakpoint, and a straight one goes from one
value to the next without turning back.
-/

namespace MusicPart.Curve

open MusicPart.Dynamics (level between_linear)

variable {i : Interpolation} {t : Rat} {p q : Point Rat} {points before after : List (Point Rat)}

/-! ### Between two breakpoints -/

theorem spline_zero (p₀ p₁ p₂ p₃ : Rat) : spline p₀ p₁ p₂ p₃ 0 = p₁ := by
  simp only [spline]
  norm_num
  ring

theorem level_left (p q : Point Rat) : level p q p.time = p.value := by
  rw [level, sub_self, zero_div, mul_zero, add_zero]

theorem level_right (h : p.time < q.time) : level p q q.time = q.value := by
  rw [level, div_self (sub_pos.mpr h).ne', mul_one, add_sub_cancel]

/-- Every interpolation starts at the first of the two breakpoints. -/
theorem between_left (h : p.time < q.time) (i : Interpolation) (a b : Rat) :
    between i a p q b p.time = p.value := by
  cases i with
  | hold => rfl
  | linear => rw [between_linear h, level_left]
  | cubic =>
      have hzero : between .cubic a p q b p.time = spline a p.value q.value b 0 := by
        rw [between, sub_self, zero_div]
        exact if_neg h.not_ge
      rw [hzero, spline_zero]

theorem monotone_level (hle : p.value ≤ q.value) (h : p.time < q.time) : Monotone (level p q) := by
  intro s t hst
  have hvalue := sub_nonneg.mpr hle
  have htime := sub_pos.mpr h
  rw [level, level]
  gcongr

theorem antitone_level (hle : q.value ≤ p.value) (h : p.time < q.time) :
    Antitone (level p q) := by
  intro s t hst
  have hvalue := sub_nonpos.mpr hle
  have hpart : (s - p.time) / (q.time - p.time) ≤ (t - p.time) / (q.time - p.time) :=
    div_le_div_of_nonneg_right (sub_le_sub_right hst _) (sub_pos.mpr h).le
  rw [level, level]
  exact add_le_add_right (mul_le_mul_of_nonpos_left hpart hvalue) _

theorem level_mem_uIcc (h : p.time < q.time) (ht : t ∈ Set.Icc p.time q.time) :
    level p q t ∈ Set.uIcc p.value q.value := by
  have hleft := level_left p q
  have hright := level_right h
  rcases le_total p.value q.value with hle | hle
  · have hmono := monotone_level hle h
    exact Set.mem_uIcc_of_le (hleft ▸ hmono ht.1) (hright ▸ hmono ht.2)
  · have hanti := antitone_level hle h
    exact Set.mem_uIcc_of_ge (hright ▸ hanti ht.2) (hleft ▸ hanti ht.1)

/-! ### Which breakpoints decide -/

theorem lt_of_neighbours (h : (before ++ p :: q :: after).Pairwise fun p q => p.time < q.time) :
    p.time < q.time :=
  (List.pairwise_cons.mp (List.pairwise_append.mp h).2.1).1 q List.mem_cons_self

/-- The scan goes on to the last breakpoint so far, and remembers the one before it. -/
theorem valueFrom_append (h : (p :: before ++ q :: after).Pairwise fun p q => p.time < q.time)
    (hq : q.time ≤ t) (i : Interpolation) (a : Rat) :
    valueFrom i t a p (before ++ q :: after) =
      valueFrom i t (before.getLast?.getD p).value q after := by
  induction before generalizing p a with
  | nil => rw [List.nil_append, valueFrom, if_pos hq, List.getLast?_nil, Option.getD_none]
  | cons x before ih =>
      have htail := (List.pairwise_cons.mp h).2
      have hx : x.time < q.time := (List.pairwise_cons.mp htail).1 q (by simp)
      rw [List.cons_append, valueFrom, if_pos (hx.le.trans hq), ih htail, List.getLast?_cons,
        Option.getD_some]

theorem valueAt_cons (h : p.time < t) (i : Interpolation) (points : List (Point Rat)) :
    valueAt i t (p :: points) = valueFrom i t p.value p points := by
  rw [valueAt, if_neg h.not_ge]

/-- From the time of a breakpoint to that of the next one these two decide, with the neighbour on
either side, or the nearer one of the two where there is no neighbour. -/
theorem valueAt_between
    (h : (before ++ p :: q :: after).Pairwise fun p q => p.time < q.time) (hp : p.time ≤ t)
    (hq : t < q.time) (i : Interpolation) : valueAt i t (before ++ p :: q :: after) =
      between i (before.getLast?.getD p).value p q (after.head?.getD q).value t := by
  have hnext : (after.head?.map (·.value)).getD q.value = (after.head?.getD q).value := by
    cases after <;> rfl
  cases before with
  | nil =>
      rcases hp.eq_or_lt with rfl | hlt
      · rw [between_left hq, List.nil_append, valueAt, if_pos le_rfl]
      · rw [List.nil_append, valueAt_cons hlt, valueFrom, if_neg hq.not_ge, hnext]
        rfl
  | cons x before =>
      have hx : x.time < p.time := (List.pairwise_cons.mp h).1 p (by simp)
      rw [List.cons_append, valueAt_cons (hx.trans_le hp), valueFrom_append h hp, valueFrom,
        if_neg hq.not_ge, hnext, List.getLast?_cons, Option.getD_some]

theorem valueAt_concat (h : (before ++ [p]).Pairwise fun p q => p.time < q.time)
    (hp : p.time ≤ t) (i : Interpolation) : valueAt i t (before ++ [p]) = p.value := by
  cases before with
  | nil =>
      rw [List.nil_append, valueAt, valueFrom, ite_self]
  | cons x before =>
      have hx : x.time < p.time := (List.pairwise_cons.mp h).1 p (by simp)
      rw [List.cons_append, valueAt_cons (hx.trans_le hp), valueFrom_append h hp, valueFrom]

/-! ### What a curve does -/

/-- The value of a curve at each breakpoint, and outside of them. -/
structure GoesThrough (points : List (Point Rat)) (f : Rat → Rat) : Prop where
  at_point : ∀ p ∈ points, f p.time = p.value
  before : ∀ p ∈ points.head?, ∀ t < p.time, f t = p.value
  after : ∀ p ∈ points.getLast?, ∀ t > p.time, f t = p.value

/-- The latest breakpoint at or before a time. -/
structure IsLatest (points : List (Point Rat)) (t : Rat) (p : Point Rat) : Prop where
  mem : p ∈ points
  le : p.time ≤ t
  latest : ∀ q ∈ points, q.time ≤ t → q.time ≤ p.time

variable (h : points.Pairwise fun p q => p.time < q.time)

include h

theorem goesThrough_valueAt (i : Interpolation) :
    GoesThrough points fun t => valueAt i t points where
  at_point p hp := by
    obtain ⟨before, after, rfl⟩ := List.append_of_mem hp
    cases after with
    | nil => exact valueAt_concat h le_rfl i
    | cons q after =>
        have hq := lt_of_neighbours h
        exact (valueAt_between h le_rfl hq i).trans (between_left hq i _ _)
  before p hp t ht := by
    obtain ⟨rest, rfl⟩ := List.head?_eq_some_iff.mp hp
    rw [valueAt, if_pos ht.le]
  after p hp t ht := by
    obtain ⟨before, rfl⟩ := List.getLast?_eq_some_iff.mp hp
    exact valueAt_concat h ht.le i

theorem valueAt_hold_of_isLatest (hp : IsLatest points t p) : valueAt .hold t points = p.value := by
  obtain ⟨hmem, hle, hlatest⟩ := hp
  obtain ⟨before, after, rfl⟩ := List.append_of_mem hmem
  cases after with
  | nil => exact valueAt_concat h hle .hold
  | cons q after =>
      have hq := lt_of_neighbours h
      have hlate : t < q.time := not_le.mp fun hqt => (hlatest q (by simp) hqt).not_gt hq
      rw [valueAt_between h hle hlate, between]

/-- A curve that goes straight is the line through two neighbours from the one to the other. -/
theorem eqOn_level (hpq : [p, q] <:+: points) : p.time < q.time ∧
    Set.EqOn (fun t => valueAt .linear t points) (level p q) (Set.Icc p.time q.time) := by
  have hthrough := (goesThrough_valueAt h .linear).at_point
  obtain ⟨before, after, rfl⟩ := hpq
  rw [List.append_assoc] at h hthrough ⊢
  have hlt : p.time < q.time := lt_of_neighbours h
  refine ⟨hlt, fun t ht => ?_⟩
  rcases ht.2.eq_or_lt with rfl | hq
  · exact (hthrough q (by simp)).trans (level_right hlt).symm
  · exact (valueAt_between h ht.1 hq .linear).trans (between_linear hlt _ _ t)

/-- A curve goes through its breakpoints and is level outside of them. One that holds has the value
of the latest breakpoint, and one that goes straight neither turns between two neighbours nor leaves
the values between theirs. -/
theorem valueAt_through :
    (∀ i, GoesThrough points fun t => valueAt i t points) ∧
      (∀ t p, IsLatest points t p → valueAt .hold t points = p.value) ∧
      ∀ p q, [p, q] <:+: points →
        (p.value ≤ q.value →
          MonotoneOn (fun t => valueAt .linear t points) (Set.Icc p.time q.time)) ∧
        (q.value ≤ p.value →
          AntitoneOn (fun t => valueAt .linear t points) (Set.Icc p.time q.time)) ∧
        ∀ t ∈ Set.Icc p.time q.time, valueAt .linear t points ∈ Set.uIcc p.value q.value := by
  refine ⟨goesThrough_valueAt h, fun t p => valueAt_hold_of_isLatest h, fun p q hpq => ?_⟩
  obtain ⟨hlt, hline⟩ := eqOn_level h hpq
  refine ⟨fun hle => ?_, fun hle => ?_, fun t ht => ?_⟩
  · exact ((monotone_level hle hlt).monotoneOn _).congr hline.symm
  · exact ((antitone_level hle hlt).antitoneOn _).congr hline.symm
  · have hvalue : valueAt .linear t points = level p q t := hline ht
    rw [hvalue]
    exact level_mem_uIcc hlt ht

omit h

/-- A rise and a longer fall. -/
def hairpin : List (Point Rat) := [⟨1, 30⟩, ⟨2, 90⟩, ⟨5, 60⟩]

theorem hairpin_through : hairpin.Pairwise (fun p q => p.time < q.time) ∧
    (∀ i, valueAt i 2 hairpin = 90 ∧ valueAt i 0 hairpin = 30 ∧ valueAt i 7 hairpin = 60) ∧
      valueAt .hold 4 hairpin = 90 ∧ valueAt .linear 4 hairpin ∈ Set.uIcc 90 60 := by
  have hincreasing : hairpin.Pairwise fun p q => p.time < q.time := by decide +kernel
  obtain ⟨hthrough, hhold, hlinear⟩ := valueAt_through hincreasing
  have hlatest : IsLatest hairpin 4 ⟨2, 90⟩ := ⟨by simp [hairpin], by norm_num, by decide +kernel⟩
  refine ⟨hincreasing, fun i => ⟨?_, ?_, ?_⟩, hhold 4 _ hlatest, ?_⟩
  · exact (hthrough i).at_point ⟨2, 90⟩ (by simp [hairpin])
  · exact (hthrough i).before ⟨1, 30⟩ rfl 0 (by norm_num)
  · exact (hthrough i).after ⟨5, 60⟩ rfl 7 (by norm_num)
  · exact (hlinear ⟨2, 90⟩ ⟨5, 60⟩ ⟨[⟨1, 30⟩], [], rfl⟩).2.2 4 ⟨by norm_num, by norm_num⟩

end MusicPart.Curve
