import MusicPart.Proofs.Products
import MusicPart.Proofs.RoundingErrors
import MusicPart.Proofs.SmoothedJumps
import MusicPart.Proofs.SwellCoverage

/-!
# Sizes of jumps

Between values of a controller a jump needs seven steps at most, so that smoothing puts no more
than six points between two neighbours. Swells and the rise and fall of the expression have such
values. The points of a candidate are smoothed with the values they were read with, though, and a
larger jump gets a point for each step it needs but the last.
-/

namespace MusicPart

/-! ### Whole parts -/

/-- A whole part is below a positive bound exactly if the number is. -/
theorem Quantity.truncate_lt_iff {r : Rat} {n : Int} (h : 0 < n) : truncate r < n ↔ r < n := by
  rcases le_total 0 r with hr | hr
  · rw [truncate_of_nonneg hr, Int.floor_lt]
  · have hneg := (truncate_mem (Int.floor_le r) (b := 0) (by exact_mod_cast hr)).2
    have hpos : (0 : Rat) < n := Int.cast_pos.mpr h
    exact iff_of_true (hneg.trans_lt h) (hr.trans_lt hpos)

theorem Conversion.lt_iff_of_result? {c : Conversion Float} {n k : Int} {bound : Float}
    (h : c.result? = some n) (hbound : Quantity.value? bound = some (k : Rat)) (hk : 0 < k) :
    n < k ↔ c.quantity < bound := by
  obtain ⟨hn, -⟩ := Option.filter_eq_some_iff.mp h
  obtain ⟨r, hr, rfl⟩ := Option.map_eq_some_iff.mp hn
  rw [Binary64.lt_iff_of_value? hr hbound, Quantity.truncate_lt_iff hk]

namespace Dynamics

open Curve (sortPoints)
open Quantity (IsNumber)

/-! ### Values of controllers -/

/-- The value of a point is not outside those of a controller. -/
def IsData {α : Type} [Quantity α] (p : Point α) : Prop := ¬p.value < 0.0 ∧ ¬127.0 < p.value

theorem isData_of_mem_swell {n : Note Float} {p : Point Float} (h : p ∈ swell n) : IsData p := by
  obtain ⟨s, -, rfl⟩ := List.mem_map.mp h
  exact Quantity.clamp_within (by decide +kernel)

theorem isData_of_mem_arch {length : Float} {p : Point Float} (h : p ∈ arch length) :
    IsData p := by
  have hside : ¬(64.0 : Float) < 0.0 ∧ ¬(127.0 : Float) < 64.0 := by decide +kernel
  have htop : ¬(96.0 : Float) < 0.0 ∧ ¬(127.0 : Float) < 96.0 := by decide +kernel
  simp only [arch, List.mem_cons, List.not_mem_nil, or_false] at h
  rcases h with rfl | rfl | rfl
  · exact hside
  · exact htop
  · exact hside

variable {c : Controllers Float} {length : Float} {notes : List (Note Float)}
  {curves : List (Curve Float)} {points : List (Point Float)} {p q : Point Float}

theorem isData_of_mem_smoothed (h : ∀ p ∈ pointsOf "dynamics" curves, IsData p)
    (hpoints : points ∈ smoothed c length notes curves) (hp : p ∈ points) : IsData p := by
  rcases List.mem_append.mp hpoints with hswelled | harched
  · obtain ⟨-, rfl⟩ := swelled?_eq_some (Option.mem_toList.mp hswelled)
    rcases List.mem_append.mp (mem_foldl_cover hp) with hkept | hadded
    · exact h p hkept
    · obtain ⟨n, -, hn⟩ := List.mem_flatMap.mp hadded
      exact isData_of_mem_swell hn
  · obtain ⟨-, -, rfl⟩ := arched?_eq_some (Option.mem_toList.mp harched)
    exact isData_of_mem_arch hp

/-! ### Steps of a jump -/

theorem value?_maxJump : Quantity.value? (maxJump : Float) = some 20 := by decide +kernel

theorem value?_slack :
    Quantity.value? (Note.slack : Float) = some (4835703278458517 / 2 ^ 82) := by decide +kernel

theorem value?_abs {x : Float} {r : Rat} (h : Quantity.value? x = some r) :
    Quantity.value? (Quantity.abs x) = some |r| := by
  rw [Quantity.abs]
  split
  · rename_i hneg
    rw [Binary64.lt_iff_of_value? h Binary64.value?_zero] at hneg
    rw [Binary64.value?_neg h, abs_of_neg hneg]
  · rename_i hpos
    rw [Binary64.lt_iff_of_value? h Binary64.value?_zero] at hpos
    rw [h, abs_of_nonneg (not_lt.mp hpos)]

theorem maxJump_lt_of_jumps (h : jumps p q = true) :
    maxJump < Quantity.abs (q.value - p.value) := by
  simp only [jumps, Bool.and_eq_true, decide_eq_true_eq] at h
  exact h.2

theorem isNumber_of_jumps (h : jumps p q = true) : IsNumber p.value ∧ IsNumber q.value := by
  have hnumber := (Quantity.Lawful.isNumber_of_lt (maxJump_lt_of_jumps h)).2
  rw [Quantity.abs] at hnumber
  split at hnumber
  · exact (Binary64.isNumber_of_sub (Binary64.isNumber_neg.mp hnumber)).symm
  · exact (Binary64.isNumber_of_sub hnumber).symm

/-- Values of a controller differ by no more than the greatest of them. -/
theorem exists_value?_difference (hjumps : jumps p q = true) (hp : IsData p) (hq : IsData q) :
    ∃ r, Quantity.value? (Quantity.abs (q.value - p.value)) = some r ∧ 20 < r ∧ r ≤ 127 := by
  obtain ⟨hpn, hqn⟩ := isNumber_of_jumps hjumps
  have hmost := Conversion.value?_largestData
  obtain ⟨a, ha, ha0, ha1⟩ :=
    Binary64.exists_value?_of_not_lt hpn Binary64.value?_zero hmost hp.1 hp.2
  obtain ⟨b, hb, hb0, hb1⟩ :=
    Binary64.exists_value?_of_not_lt hqn Binary64.value?_zero hmost hq.1 hq.2
  obtain ⟨hexact, hbound⟩ := Binary64.rounded_of_value? hmost
  have hhigh : Binary64.rounded (b - a) ≤ 127 := by
    refine le_trans (Binary64.rounded_mono ?_) hexact.le
    linarith
  have hlow : -127 ≤ Binary64.rounded (b - a) := by
    refine le_trans ?_ (Binary64.rounded_mono (x := -127) ?_)
    · rw [Binary64.rounded_neg]
      exact neg_le_neg hexact.le
    · push_cast at ha1 hb1
      linarith
  have habs : |Binary64.rounded (b - a)| ≤ 127 := abs_le.mpr ⟨hlow, hhigh⟩
  have hvalue := value?_abs ((Binary64.attains_sub_of_value? hb ha).value?
    (habs.trans_lt ((le_abs_self _).trans_lt hbound)))
  refine ⟨_, hvalue, ?_, habs⟩
  exact (Binary64.lt_iff_of_value? value?_maxJump hvalue).mp (maxJump_lt_of_jumps hjumps)

theorem exists_value?_ceil {x : Float} {r : Rat} (h : Quantity.value? x = some r) (h0 : 0 ≤ r)
    (h7 : r ≤ 7) : ∃ n : Int, Quantity.value? (Quantity.ceil x) = some (n : Rat) ∧ n ≤ 7 := by
  have hlow : 0 ≤ ⌈r⌉ := Int.ceil_nonneg h0
  have hhigh : ⌈r⌉ ≤ 7 := Int.ceil_le.mpr h7
  refine ⟨⌈r⌉, ?_, hhigh⟩
  have hceil : Rat.ceil r = ⌈r⌉ := Int.cast_injective (α := Rat) (Exact.ceil_eq r)
  rw [Quantity.ceil, Quantity.mapWhole, h]
  dsimp only
  rw [hceil]
  exact Binary64.value?_ofInt (by omega)

/-- A jump between values of a controller needs seven steps at most. -/
theorem stepsNeeded_le (hjumps : jumps p q = true) (hp : IsData p) (hq : IsData q) :
    stepsNeeded p q < 8.0 := by
  obtain ⟨r, hr, hlow, hhigh⟩ := exists_value?_difference hjumps hp hq
  have hseven : Quantity.value? (7.0 : Float) = some 7 := by decide +kernel
  have hlimit : Quantity.value? (8.0 : Float) = some 8 := by decide +kernel
  have hquotient : 1 ≤ Binary64.nearest (r / 20) ∧ Binary64.nearest (r / 20) ≤ 7 := by
    have hone : 1 ≤ r / 20 := by linarith
    have hle := Binary64.nearest_mono (by linarith) (show r / 20 ≤ 7 by linarith)
    have hfit := Binary64.rounded_of_value? hseven
    rw [Binary64.rounded_of_nonneg (by norm_num)] at hfit
    exact ⟨Binary64.nearest_one ▸ Binary64.nearest_mono one_pos hone, hle.trans hfit.1.le⟩
  have hdivided := (Binary64.attains_div hr value?_maxJump (by norm_num) hlow.le).value? <| by
    rw [abs_of_nonneg (by linarith [hquotient.1])]
    exact hquotient.2.trans_lt ((le_abs_self _).trans_lt (Binary64.rounded_of_value? hseven).2)
  obtain ⟨hrest, hrest0, hrestle⟩ := Binary64.value?_sub_of_le hdivided value?_slack (by norm_num)
    (le_trans (by norm_num) hquotient.1)
  obtain ⟨n, hn, hle⟩ := exists_value?_ceil hrest hrest0 (hrestle.trans hquotient.2)
  have hsteps : Quantity.value? (stepsNeeded p q) = some (n : Rat) := hn
  rw [Binary64.lt_iff_of_value? hsteps hlimit]
  exact_mod_cast (show n < 8 by omega)

/-- Smoothing adds no more than six points to a jump of fewer than eight steps, and none to one of
more steps than a machine word can hold. -/
theorem length_inBetween_le_iff (hjumps : jumps p q = true) : (inBetween p q).length ≤ 6 ↔
    stepsNeeded p q < 8.0 ∨ ¬stepsNeeded p q < 2147483648.0 := by
  rw [length_inBetween hjumps, ← Request.fits_stepsNeeded_iff]
  by_cases hfits : (Conversion.toInt32 (stepsNeeded p q)).Fits
  · obtain ⟨n, hn⟩ := Option.isSome_iff_exists.mp hfits
    have hlimit : Quantity.value? (8.0 : Float) = some ((8 : Int) : Rat) := by decide +kernel
    have hlt := Conversion.lt_iff_of_result? hn hlimit (by decide)
    rw [Conversion.toInt32] at hlt
    rw [or_iff_left (not_not_intro hfits), hn, Option.elim_some, ← hlt]
    omega
  · rw [Conversion.result?_eq_none hfits]
    exact iff_of_true (Nat.zero_le _) (.inr hfits)

example : (inBetween ⟨0.0, 0.0⟩ ⟨0.5, (200.0 : Float)⟩).length = 9 := by decide +kernel

/-! ### Curves -/

/-- Smoothing puts at most six points between two neighbours. -/
def Sparing {α : Type} [Quantity α] (points : List (Point α)) : Prop :=
  (sortPoints points).IsChain fun p q => (inBetween p q).length ≤ 6

theorem length_inBetween_le (hp : IsData p) (hq : IsData q) : (inBetween p q).length ≤ 6 := by
  by_cases hjumps : jumps p q = true
  · exact (length_inBetween_le_iff hjumps).mpr (.inl (stepsNeeded_le hjumps hp hq))
  · rw [inBetween, if_neg hjumps]
    exact Nat.zero_le _

theorem sparing_of_isData (h : ∀ p ∈ points, IsData p) : Sparing points := by
  have hsorted : ∀ p ∈ sortPoints points, IsData p := fun p hp => h p (List.mem_mergeSort.mp hp)
  have hpairs : (sortPoints points).Pairwise fun p q => (inBetween p q).length ≤ 6 :=
    List.pairwise_of_forall_mem_list fun p hp q hq =>
      length_inBetween_le (hsorted p hp) (hsorted q hq)
  exact hpairs.isChain

theorem sparing_iff : Sparing points ↔ (sortPoints points).IsChain fun p q =>
    jumps p q = true → stepsNeeded p q < 8.0 ∨ ¬stepsNeeded p q < 2147483648.0 := by
  have hpair (p q : Point Float) : (inBetween p q).length ≤ 6 ↔
      (jumps p q = true → stepsNeeded p q < 8.0 ∨ ¬stepsNeeded p q < 2147483648.0) := by
    by_cases hjumps : jumps p q = true
    · rw [length_inBetween_le_iff hjumps, forall_prop_of_true hjumps]
    · rw [inBetween, if_neg hjumps]
      exact iff_of_true (Nat.zero_le _) fun h => absurd h hjumps
  simp only [Sparing, hpair]

/-- Smoothing counts the points that it puts between neighbours of the curves that are shaped. It
puts no more than six between any two exactly if no jump of the dynamics, the swells included, needs
eight steps or more that a machine word can still count. None does where the dynamics were read with
values of a controller. -/
theorem shape_sparing_iff (c : Controllers Float) (length : Float) (notes : List (Note Float))
    (curves : List (Curve Float)) :
    (shape c length notes curves).report.smoothing = ((smoothed c length notes curves).map
        fun points => (insertions (sortPoints points)).length).sum ∧
      ((∀ points ∈ smoothed c length notes curves, Sparing points) ↔
        ∀ points ∈ swelled? c length notes curves, (sortPoints points).IsChain fun p q =>
          jumps p q = true → stepsNeeded p q < 8.0 ∨ ¬stepsNeeded p q < 2147483648.0) ∧
      ((∀ p ∈ pointsOf "dynamics" curves, IsData p) →
        ∀ points ∈ smoothed c length notes curves, Sparing points) := by
  refine ⟨?_, ?_, fun h points hpoints => ?_⟩
  · rw [shape_eq]
    simp only [added_smooth]
  · constructor
    · intro h points hswelled
      exact sparing_iff.mp (h points (List.mem_append_left _ (Option.mem_toList.mpr hswelled)))
    · intro h points hpoints
      rcases List.mem_append.mp hpoints with hswelled | harched
      · exact sparing_iff.mpr (h points (Option.mem_toList.mp hswelled))
      · obtain ⟨-, -, rfl⟩ := arched?_eq_some (Option.mem_toList.mp harched)
        exact sparing_of_isData fun p => isData_of_mem_arch
  · exact sparing_of_isData fun p => isData_of_mem_smoothed h hpoints

end Dynamics

end MusicPart
