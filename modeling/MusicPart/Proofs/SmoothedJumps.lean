import MusicPart.Proofs.Conversions
import MusicPart.Proofs.TimeOrder

/-!
# Smoothed jumps

In exact arithmetic smoothing divides the stretch between two neighbours into equal steps on the
straight line. Each step is within the bound, but for the slack, so smoothing again finds nothing to
divide, and a curve that goes straight between its points has the values it had. Only a jump of so
many steps that no machine word holds their number stays as it is.
-/

namespace MusicPart.Dynamics

open Curve (sortPoints valueAt valueFrom between)

variable {α : Type} [Quantity α]

/-! ### Stretches -/

/-- Two neighbours with what smoothing puts between them. -/
def stretch (p q : Point α) : List (Point α) := p :: (inBetween p q ++ [q])

theorem exists_fill_cons (p : Point α) (ps : List (Point α)) :
    ∃ rest, fill (p :: ps) = p :: rest := by
  cases ps with
  | nil => exact ⟨_, rfl⟩
  | cons q ps => exact ⟨_, rfl⟩

/-- What holds along a smoothed curve is a matter of its stretches. -/
theorem isChain_fill {R : Point α → Point α → Prop} : ∀ points : List (Point α),
    (fill points).IsChain R ↔ points.IsChain fun p q => (stretch p q).IsChain R
  | [] => by simp [fill]
  | [p] => by simp [fill]
  | p :: q :: ps => by
      obtain ⟨rest, hrest⟩ := exists_fill_cons q ps
      have ih := isChain_fill (R := R) (q :: ps)
      rw [hrest] at ih
      rw [fill, hrest, ← List.cons_append, List.isChain_split, List.isChain_cons_cons, ih, stretch,
        List.cons_append]

/-- All that smoothing puts between neighbours. -/
def insertions : List (Point α) → List (Point α)
  | p :: q :: ps => inBetween p q ++ insertions (q :: ps)
  | _ => []

theorem fill_perm : ∀ points : List (Point α), (fill points).Perm (points ++ insertions points)
  | [] => .nil
  | [p] => .refl [p]
  | p :: q :: ps => by
      rw [fill, insertions, List.cons_append]
      refine .cons p (((fill_perm (q :: ps)).append_left _).trans ?_)
      rw [← List.append_assoc, ← List.append_assoc]
      exact List.perm_append_comm.append_right _

theorem smooth_perm (points : List (Point α)) :
    (smooth points).Perm (points ++ insertions (sortPoints points)) :=
  (fill_perm _).trans ((List.mergeSort_perm points _).append_right _)

theorem added_smooth (points : List (Point α)) :
    added points (smooth points) = (insertions (sortPoints points)).length := by
  rw [added, (smooth_perm points).length_eq, List.length_append, Nat.add_sub_cancel_left]

theorem fill_eq_self : ∀ {points : List (Point α)},
    points.IsChain (fun p q => inBetween p q = []) → fill points = points
  | [], _ => rfl
  | [_], _ => rfl
  | p :: q :: ps, h => by
      obtain ⟨hpq, hrest⟩ := List.isChain_cons_cons.mp h
      rw [fill, hpq, fill_eq_self hrest, List.nil_append]

/-! ### Equal steps -/

/-- The point after some of the steps from one point to the next. -/
def stepAt (p q : Point Rat) (n k : Nat) : Point Rat :=
  ⟨p.time + (q.time - p.time) * (k / n), p.value + (q.value - p.value) * (k / n)⟩

/-- The number of steps from one point to the next once it is smoothed. -/
def stepCount (p q : Point Rat) : Nat := (inBetween p q).length + 1

variable {p q : Point Rat}

theorem stepAt_zero (n : Nat) : stepAt p q n 0 = p := by
  simp [stepAt]

theorem stepAt_self {n : Nat} (h : 0 < n) : stepAt p q n n = q := by
  have hn : (n : Rat) ≠ 0 := Nat.cast_ne_zero.mpr h.ne'
  simp [stepAt, div_self hn]

theorem inBetween_eq_map : inBetween p q =
    (List.range (stepCount p q - 1)).map fun k => stepAt p q (stepCount p q) (k + 1) := by
  rw [stepCount, Nat.add_sub_cancel, inBetween]
  split
  · rw [List.length_map, List.length_range]
    refine List.map_congr_left fun k hk => ?_
    have hk := List.mem_range.mp hk
    have hsteps : (((Quantity.toWord 0x80000000 (stepsNeeded p q) - 1).toNat + 1 : Nat) : Rat) =
        Quantity.toWord 0x80000000 (stepsNeeded p q) := by
      exact_mod_cast (show (((Quantity.toWord 0x80000000 (stepsNeeded p q) - 1).toNat + 1 : Nat) :
        Int) = Quantity.toWord 0x80000000 (stepsNeeded p q) by omega)
    simp only [stepAt, hsteps, Exact.ofInt_eq]
    push_cast
    rfl
  · rfl

theorem stretch_eq_map : stretch p q =
    (List.range (stepCount p q + 1)).map (stepAt p q (stepCount p q)) := by
  have hlast : stepAt p q (stepCount p q) (stepCount p q) = q := stepAt_self (Nat.succ_pos _)
  have hrange : List.range (stepCount p q) =
      0 :: (List.range (stepCount p q - 1)).map Nat.succ := List.range_succ_eq_map
  rw [stretch, List.range_succ, List.map_append, List.map_singleton, hlast, hrange, List.map_cons,
    List.map_map, stepAt_zero, List.cons_append, inBetween_eq_map]
  rfl

theorem isChain_stretch {R : Point Rat → Point Rat → Prop} : (stretch p q).IsChain R ↔
    ∀ k < stepCount p q, R (stepAt p q (stepCount p q) k) (stepAt p q (stepCount p q) (k + 1)) := by
  rw [stretch_eq_map, List.isChain_map, List.isChain_range]
  rfl

theorem time_step (n k : Nat) :
    (stepAt p q n (k + 1)).time - (stepAt p q n k).time = (q.time - p.time) / n := by
  simp only [stepAt]
  push_cast
  ring

theorem value_step (n k : Nat) :
    (stepAt p q n (k + 1)).value - (stepAt p q n k).value = (q.value - p.value) / n := by
  simp only [stepAt]
  push_cast
  ring

/-! ### The size of a step -/

theorem maxJump_eq : (maxJump : Rat) = 20 := by
  rw [maxJump]
  norm_num

theorem jumps_iff : jumps p q = true ↔ Note.slack < q.time - p.time ∧
    q.time - p.time ≤ jumpWindow + Note.slack ∧ maxJump < |q.value - p.value| := by
  simp [jumps, and_assoc]

theorem stepsNeeded_eq :
    stepsNeeded p q = (⌈|q.value - p.value| / maxJump - Note.slack⌉ : Int) := by
  rw [stepsNeeded, Exact.ceil_eq, Exact.abs_eq]

/-- Whether a machine word holds the number of steps. -/
def Countable (p q : Point Rat) : Prop :=
  jumps p q = true → |q.value - p.value| ≤ maxJump * (2147483647 + Note.slack)

theorem jump_le_iff (n : Int) : |q.value - p.value| ≤ maxJump * (n + Note.slack) ↔
    ⌈|q.value - p.value| / maxJump - Note.slack⌉ ≤ n := by
  have hpos : (0 : Rat) < maxJump := by
    rw [maxJump_eq]
    norm_num
  rw [Int.ceil_le, sub_le_iff_le_add, div_le_iff₀' hpos]

theorem toWord_stepsNeeded : Quantity.toWord 0x80000000 (stepsNeeded p q) =
    if ⌈|q.value - p.value| / maxJump - Note.slack⌉ ≤ 2147483647 then
      ⌈|q.value - p.value| / maxJump - Note.slack⌉
    else -2147483648 := by
  have hslack : (-1 : Int) < ⌈|q.value - p.value| / maxJump - Note.slack⌉ := by
    have hquotient : 0 ≤ |q.value - p.value| / maxJump :=
      div_nonneg (abs_nonneg _) (by rw [maxJump_eq]; norm_num)
    rw [Int.lt_ceil, Note.slack_eq]
    push_cast
    linarith
  have hvalue : (Quantity.value? (stepsNeeded p q)).map Quantity.truncate =
      some ⌈|q.value - p.value| / maxJump - Note.slack⌉ := by
    rw [stepsNeeded_eq]
    exact congrArg some (Exact.truncate_intCast _)
  rw [Quantity.toWord, hvalue]
  simp only [Quantity.fitsWord, Bool.and_eq_true, decide_eq_true_eq]
  split <;> split <;> omega

/-- A jump that a word holds the steps of is divided into as many as it needs. -/
theorem stepCount_eq (hjumps : jumps p q = true) (hcount : Countable p q) :
    (stepCount p q : Int) = ⌈|q.value - p.value| / maxJump - Note.slack⌉ := by
  have hfits := (jump_le_iff 2147483647).mp (by exact_mod_cast hcount hjumps)
  have hpos : 0 < ⌈|q.value - p.value| / maxJump - Note.slack⌉ := by
    have hlarge := (jumps_iff.mp hjumps).2.2
    rw [Int.ceil_pos, Note.slack_eq]
    rw [maxJump_eq] at hlarge ⊢
    linarith
  rw [stepCount, inBetween, if_pos hjumps, toWord_stepsNeeded, if_pos hfits, List.length_map,
    List.length_range]
  omega

/-- A word that is too small for the number of steps leaves a jump as it is. -/
theorem inBetween_of_not_countable (h : ¬Countable p q) : inBetween p q = [] := by
  rw [Countable, Classical.not_imp] at h
  have hmany : ¬⌈|q.value - p.value| / maxJump - Note.slack⌉ ≤ 2147483647 := fun hle =>
    h.2 (by exact_mod_cast (jump_le_iff 2147483647).mpr hle)
  rw [inBetween, if_pos h.1, toWord_stepsNeeded, if_neg hmany]
  rfl

/-- A step within the bound and the slack of one step is not divided. -/
theorem inBetween_of_le (h : |q.value - p.value| ≤ maxJump * (1 + Note.slack)) :
    inBetween p q = [] := by
  have hone := (jump_le_iff 1).mp (by exact_mod_cast h)
  rw [inBetween]
  split
  · have hnone : (⌈|q.value - p.value| / maxJump - Note.slack⌉ - 1).toNat = 0 := by omega
    rw [toWord_stepsNeeded, if_pos (by omega)]
    dsimp only
    rw [hnone]
    rfl
  · rfl

/-- The steps of a jump are within the bound and the slack of one step. -/
theorem abs_div_stepCount_le (hjumps : jumps p q = true) (hcount : Countable p q) :
    |(q.value - p.value) / stepCount p q| ≤ maxJump * (1 + Note.slack) := by
  have hpos : (0 : Rat) < stepCount p q := Nat.cast_pos.mpr (Nat.succ_pos _)
  have hone : (1 : Rat) ≤ stepCount p q := Nat.one_le_cast.mpr (Nat.succ_pos _)
  have hsteps := (jump_le_iff (p := p) (q := q) (stepCount p q)).mpr
    (stepCount_eq hjumps hcount).ge
  rw [abs_div, abs_of_pos hpos, div_le_iff₀ hpos]
  rw [Int.cast_natCast] at hsteps
  simp only [maxJump_eq, Note.slack_eq] at hsteps ⊢
  linarith

/-! ### What holds of each stretch -/

/-- Neighbours that are not far from each other, but not at one time, have values that differ little
more than a step may. -/
def Gentle (p q : Point Rat) : Prop :=
  Note.slack < q.time - p.time → q.time - p.time ≤ jumpWindow + Note.slack →
    |q.value - p.value| ≤ maxJump + 1e-7

theorem isChain_time_stretch (h : p.time ≤ q.time) :
    (stretch p q).IsChain fun a b => a.time ≤ b.time := by
  rw [isChain_stretch]
  intro k _
  rw [← sub_nonneg, time_step]
  exact div_nonneg (sub_nonneg.mpr h) (Nat.cast_nonneg _)

theorem isChain_inBetween_stretch (p q : Point Rat) :
    (stretch p q).IsChain fun a b => inBetween a b = [] := by
  by_cases hjumps : jumps p q = true ∧ Countable p q
  · rw [isChain_stretch]
    intro k _
    refine inBetween_of_le ?_
    rw [value_step]
    exact abs_div_stepCount_le hjumps.1 hjumps.2
  · have hnil : inBetween p q = [] := by
      rcases not_and_or.mp hjumps with hflat | hmany
      · rw [inBetween, if_neg hflat]
      · exact inBetween_of_not_countable hmany
    rw [stretch, hnil]
    exact List.isChain_pair.mpr hnil

theorem isChain_gentle_stretch : (stretch p q).IsChain Gentle ↔ Countable p q := by
  constructor
  · intro h
    by_contra hmany
    rw [stretch, inBetween_of_not_countable hmany, List.nil_append, List.isChain_pair] at h
    rw [Countable, Classical.not_imp] at hmany
    obtain ⟨htime, hnear, -⟩ := jumps_iff.mp hmany.1
    refine hmany.2 ((h htime hnear).trans ?_)
    rw [maxJump_eq, Note.slack_eq]
    norm_num
  · intro hcount
    rw [isChain_stretch]
    intro k _ htime hnear
    rw [value_step]
    by_cases hjumps : jumps p q = true
    · refine (abs_div_stepCount_le hjumps hcount).trans ?_
      rw [maxJump_eq, Note.slack_eq]
      norm_num
    · have hone : stepCount p q = 1 := by
        rw [stepCount, inBetween, if_neg hjumps]
        rfl
      rw [time_step, hone, Nat.cast_one, div_one] at htime hnear
      have hsmall : |q.value - p.value| ≤ maxJump :=
        not_lt.mp fun hlarge => hjumps (jumps_iff.mpr ⟨htime, hnear, hlarge⟩)
      rw [hone, Nat.cast_one, div_one]
      exact hsmall.trans (le_add_of_nonneg_right (by norm_num))

/-! ### Straight lines -/

/-- The value at a time of the straight line through two points. -/
def level (p q : Point Rat) (t : Rat) : Rat :=
  p.value + (q.value - p.value) * ((t - p.time) / (q.time - p.time))

/-- A point of the straight line, strictly between its ends. -/
structure OnLine (p q x : Point Rat) : Prop where
  left : p.time < x.time
  right : x.time < q.time
  value_eq : x.value = level p q x.time

theorem between_linear (h : p.time < q.time) (before after t : Rat) :
    between .linear before p q after t = level p q t := by
  rw [between]
  exact if_neg h.not_ge

namespace OnLine

variable {x : Point Rat}

theorem level_left (h : OnLine p q x) (t : Rat) : level p x t = level p q t := by
  have hx : x.time - p.time ≠ 0 := (sub_pos.mpr h.left).ne'
  have hq : q.time - p.time ≠ 0 := (sub_pos.mpr (h.left.trans h.right)).ne'
  rw [level, h.value_eq, level, level]
  field_simp
  ring

theorem level_right (h : OnLine p q x) (t : Rat) : level x q t = level p q t := by
  have hx : q.time - x.time ≠ 0 := (sub_pos.mpr h.right).ne'
  have hq : q.time - p.time ≠ 0 := (sub_pos.mpr (h.left.trans h.right)).ne'
  rw [level, h.value_eq, level, level]
  field_simp
  ring

end OnLine

theorem onLine_of_mem_inBetween {x : Point Rat} (h : x ∈ inBetween p q) : OnLine p q x := by
  have htime : p.time < q.time := by
    by_cases hjumps : jumps p q = true
    · have hslack := (jumps_iff.mp hjumps).1
      rw [Note.slack_eq] at hslack
      linarith
    · rw [inBetween, if_neg hjumps] at h
      exact absurd h List.not_mem_nil
  rw [inBetween_eq_map] at h
  obtain ⟨k, hk, rfl⟩ := List.mem_map.mp h
  have hk : ((k + 1 : Nat) : Rat) < stepCount p q := by
    have := List.mem_range.mp hk
    exact_mod_cast (show k + 1 < stepCount p q by omega)
  have hgap := sub_pos.mpr htime
  have hpos : (0 : Rat) < stepCount p q := Nat.cast_pos.mpr (Nat.succ_pos _)
  have hpart : (0 : Rat) < (k + 1 : Nat) / stepCount p q :=
    div_pos (Nat.cast_pos.mpr k.succ_pos) hpos
  have hpart' : ((k + 1 : Nat) : Rat) / stepCount p q < 1 := (div_lt_one hpos).mpr hk
  refine ⟨?_, ?_, ?_⟩
  · exact lt_add_of_pos_right _ (mul_pos hgap hpart)
  · have hlt := mul_lt_mul_of_pos_left hpart' hgap
    simp only [stepAt]
    linarith
  · rw [level]
    simp only [stepAt]
    rw [add_sub_cancel_left, mul_div_cancel_left₀ _ hgap.ne']

theorem pairwise_time_inBetween (p q : Point Rat) :
    (inBetween p q).Pairwise fun a b => a.time < b.time := by
  cases hnil : inBetween p q with
  | nil => exact .nil
  | cons x xs =>
      have hline := onLine_of_mem_inBetween (hnil ▸ List.mem_cons_self : x ∈ inBetween p q)
      have hgap := sub_pos.mpr (hline.left.trans hline.right)
      have hpos : (0 : Rat) < stepCount p q := Nat.cast_pos.mpr (Nat.succ_pos _)
      rw [← hnil, inBetween_eq_map, List.pairwise_map]
      refine List.pairwise_lt_range.imp fun {j k} hjk => ?_
      have hjk : ((j + 1 : Nat) : Rat) < ((k + 1 : Nat) : Rat) := by
        exact_mod_cast Nat.succ_lt_succ hjk
      simp only [stepAt]
      gcongr

/-! ### Values of a curve that goes straight -/

theorem valueFrom_linear_congr (t before before' : Rat) (p : Point Rat) (ps : List (Point Rat)) :
    valueFrom .linear t before p ps = valueFrom .linear t before' p ps := by
  cases ps with
  | nil => rfl
  | cons q ps =>
      rw [valueFrom, valueFrom]
      rfl

/-- Points on the line between two points change no value. The induction moves the left end along
the line. -/
theorem valueFrom_append {xs : List (Point Rat)} (t : Rat) (rest : List (Point Rat))
    (hline : ∀ x ∈ xs, OnLine p q x) (htimes : xs.Pairwise fun a b => a.time < b.time)
    (before : Rat) :
    valueFrom .linear t before p (xs ++ q :: rest) = valueFrom .linear t before p (q :: rest) := by
  induction xs generalizing p before with
  | nil => rfl
  | cons x xs ih =>
      obtain ⟨hx, hxs⟩ := List.pairwise_cons.mp htimes
      have hfirst := hline x List.mem_cons_self
      have hbeyond : ∀ y ∈ xs, OnLine x q y := fun y hy => by
        have hy' := hline y (List.mem_cons_of_mem x hy)
        exact ⟨hx y hy, hy'.right, hy'.value_eq.trans (hfirst.level_right y.time).symm⟩
      rw [List.cons_append, valueFrom, ih hbeyond hxs, valueFrom, valueFrom,
        between_linear hfirst.left, between_linear hfirst.right,
        between_linear (hfirst.left.trans hfirst.right), hfirst.level_left, hfirst.level_right]
      split
      · split
        · exact valueFrom_linear_congr t _ _ q rest
        · rfl
      · next ht =>
          rw [if_neg fun hq => ht (hfirst.right.le.trans hq)]

theorem exists_valueFrom_fill (t : Rat) (p : Point Rat) (ps : List (Point Rat)) :
    ∃ rest, fill (p :: ps) = p :: rest ∧
      ∀ before, valueFrom .linear t before p rest = valueFrom .linear t before p ps := by
  induction ps generalizing p with
  | nil => exact ⟨[], rfl, fun _ => rfl⟩
  | cons q ps ih =>
      obtain ⟨rest, hrest, hvalue⟩ := ih q
      refine ⟨inBetween p q ++ q :: rest, by rw [fill, hrest], fun before => ?_⟩
      rw [valueFrom_append t rest (fun x => onLine_of_mem_inBetween) (pairwise_time_inBetween p q),
        valueFrom, valueFrom, hvalue]
      rfl

theorem valueAt_fill (t : Rat) (points : List (Point Rat)) :
    valueAt .linear t (fill points) = valueAt .linear t points := by
  cases points with
  | nil => rfl
  | cons p ps =>
      obtain ⟨rest, hrest, hvalue⟩ := exists_valueFrom_fill t p ps
      rw [hrest, valueAt, valueAt, hvalue]

/-! ### Smoothing -/

theorem pairwise_sortPoints (points : List (Point Rat)) :
    (sortPoints points).Pairwise fun p q => p.time ≤ q.time := by
  have hsorted : SortedByTime Point.time points (sortPoints points) :=
    sortedByTime_mergeSort fun p _ => beq_self_eq_true p.time
  exact hsorted.ordered.imp not_lt.mp

theorem pairwise_smooth (points : List (Point Rat)) :
    (smooth points).Pairwise fun p q => p.time ≤ q.time := by
  have : IsTrans (Point Rat) fun p q => p.time ≤ q.time := ⟨fun _ _ _ => le_trans⟩
  rw [← List.isChain_iff_pairwise, smooth, isChain_fill]
  exact (pairwise_sortPoints points).isChain.imp fun _ _ => isChain_time_stretch

theorem sortPoints_eq_self {points : List (Point Rat)}
    (h : points.Pairwise fun p q => p.time ≤ q.time) : sortPoints points = points :=
  List.mergeSort_of_pairwise (h.imp fun hle => by simpa using hle)

theorem smooth_smooth (points : List (Point Rat)) : smooth (smooth points) = smooth points := by
  rw [smooth, sortPoints_eq_self (pairwise_smooth points)]
  refine fill_eq_self ?_
  rw [smooth, isChain_fill]
  exact (List.pairwise_of_forall isChain_inBetween_stretch).isChain

/-- What smoothing makes of a list of points. -/
structure IsSmoothed (before after : List (Point Rat)) : Prop where
  sorted : after.Pairwise fun p q => p.time ≤ q.time
  sublist : (sortPoints before).Sublist after
  perm : after.Perm (before ++ insertions (sortPoints before))
  added_eq : added before after = (insertions (sortPoints before)).length
  /-- A curve that goes straight between its points keeps its values. -/
  valueAt_eq (t : Rat) : valueAt .linear t after = valueAt .linear t (sortPoints before)
  /-- Smoothing again adds nothing. -/
  settled : smooth after = after

theorem isSmoothed_smooth (points : List (Point Rat)) : IsSmoothed points (smooth points) := by
  constructor
  case sorted => exact pairwise_smooth points
  case sublist => exact sublist_fill _
  case perm => exact smooth_perm points
  case added_eq => exact added_smooth points
  case valueAt_eq => exact fun t => valueAt_fill t _
  case settled => exact smooth_smooth points

/-- Smoothing keeps the points and the line through them, and is done once. Neighbours that are near
each other then differ by no more than the bound, exactly if a machine word holds the number of
steps of each jump. -/
theorem smooth_gentle_iff (points : List (Point Rat)) : IsSmoothed points (smooth points) ∧
    ((smooth points).IsChain Gentle ↔ (sortPoints points).IsChain Countable) := by
  refine ⟨isSmoothed_smooth points, ?_⟩
  rw [smooth, isChain_fill]
  simp only [isChain_gentle_stretch]

end MusicPart.Dynamics
