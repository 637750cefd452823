import Mathlib
import MusicPart.Json.Value
import MusicPart.Note
import MusicPart.Quantity.Exact

/-!
# Exact time

In the rational numbers the operations on quantities are those of the ordered field, and the bounds
of notes are plain fractions.
-/

namespace MusicPart.Exact

variable (a b x : Rat)

@[simp]
theorem greater_eq_max : Quantity.greater a b = max a b := by
  rw [Quantity.greater]
  split
  · rename_i h
    exact (max_eq_right h.le).symm
  · rename_i h
    exact (max_eq_left (not_lt.mp h)).symm

@[simp]
theorem lesser_eq_min : Quantity.lesser a b = min a b := by
  rw [Quantity.lesser]
  split
  · rename_i h
    exact (min_eq_right h.le).symm
  · rename_i h
    exact (min_eq_left (not_lt.mp h)).symm

@[simp]
theorem zero_eq : (0.0 : Rat) = 0 := by norm_num

@[simp]
theorem one_eq : (1.0 : Rat) = 1 := by norm_num

@[simp]
theorem abs_eq : Quantity.abs a = |a| := by
  rw [Quantity.abs]
  split
  · rename_i h
    rw [zero_eq] at h
    exact (abs_of_neg h).symm
  · rename_i h
    rw [zero_eq] at h
    exact (abs_of_nonneg (not_lt.mp h)).symm

@[simp]
theorem ofInt_eq (n : Int) : (Quantity.ofInt n : Rat) = n := rfl

@[simp]
theorem isFinite_eq_true : Quantity.isFinite x = true := rfl

theorem clamp_eq {low high : Rat} (h : low ≤ high) :
    Quantity.clamp x low high = max low (min x high) := by
  rw [Quantity.clamp]
  split
  · rename_i hx
    rw [min_eq_left (hx.le.trans h), max_eq_left hx.le]
  · rename_i hx
    split
    · rename_i hx'
      rw [min_eq_right hx'.le, max_eq_right h]
    · rename_i hx'
      rw [min_eq_left (not_lt.mp hx'), max_eq_right (not_lt.mp hx)]

theorem clamp_mem {low high : Rat} (h : low ≤ high) :
    low ≤ Quantity.clamp x low high ∧ Quantity.clamp x low high ≤ high := by
  rw [clamp_eq x h]
  exact ⟨le_max_left _ _, max_le h (min_le_right _ _)⟩

theorem clamp_of_mem {low high : Rat} (hlow : low ≤ x) (hhigh : x ≤ high) :
    Quantity.clamp x low high = x := by
  rw [Quantity.clamp]
  rw [if_neg hlow.not_gt, if_neg hhigh.not_gt]

/-! ### Rounding -/

@[simp]
theorem floor_eq : Quantity.floor x = (⌊x⌋ : Rat) := rfl

@[simp]
theorem ceil_eq : Quantity.ceil x = (⌈x⌉ : Rat) := by
  change ((Rat.ceil x : Int) : Rat) = _
  rw [Rat.ceil_eq_neg_floor_neg, Int.ceil]
  rfl

theorem round_eq {x : Rat} (h : 0 ≤ x) : Quantity.round x = (⌊x + 1 / 2⌋ : Rat) := by
  change ((Quantity.roundHalfAway x : Int) : Rat) = _
  rw [Quantity.roundHalfAway, if_neg h.not_gt]
  rfl

/-- Rounding to decimal places keeps the order of times from zero on. -/
theorem roundTo_mem {scale x y : Rat} (hs : 0 < scale) (hx : 0 ≤ x) (hxy : x ≤ y) :
    0 ≤ Quantity.roundTo scale x ∧ Quantity.roundTo scale x ≤ Quantity.roundTo scale y := by
  have hscaled : 0 ≤ x * scale := mul_nonneg hx hs.le
  have hle : x * scale ≤ y * scale := mul_le_mul_of_nonneg_right hxy hs.le
  have hfloor : ⌊x * scale + 1 / 2⌋ ≤ ⌊y * scale + 1 / 2⌋ := Int.floor_le_floor (by linarith)
  have hnonneg : 0 ≤ ⌊x * scale + 1 / 2⌋ := Int.floor_nonneg.mpr (by linarith)
  unfold Quantity.roundTo
  rw [round_eq hscaled, round_eq (hscaled.trans hle)]
  constructor
  · exact div_nonneg (by exact_mod_cast hnonneg) hs.le
  · exact div_le_div_of_nonneg_right (by exact_mod_cast hfloor) hs.le

theorem truncate_intCast (n : Int) : Quantity.truncate (n : Rat) = n := by
  simp [Quantity.truncate]

theorem saturate_intCast (n : Int) :
    Json.Value.saturate (n : Rat) = max (-1000000) (min n 1000000) := by
  have hlow : ((-1e6 : Rat)) = ((-1000000 : Int) : Rat) := by norm_num
  have hhigh : ((1e6 : Rat)) = ((1000000 : Int) : Rat) := by norm_num
  rw [Json.Value.saturate]
  rw [clamp_eq _ (by norm_num), hlow, hhigh, ← Int.cast_min, ← Int.cast_max]
  exact truncate_intCast _

theorem truncate_le {n : Int} (h : x ≤ n) : Quantity.truncate x ≤ n := by
  have hden : (0 : Int) < x.den := Int.natCast_pos.mpr x.pos
  have hnum : x.num ≤ n * x.den := by simpa using (Rat.le_iff x n).mp h
  calc Quantity.truncate x = x.num.tdiv x.den := rfl
    _ ≤ (n * x.den).tdiv x.den := Int.tdiv_le_tdiv hden hnum
    _ = n := Int.mul_tdiv_cancel n hden.ne'

theorem saturate_le : Json.Value.saturate x ≤ 1000000 := by
  have hclamp := (clamp_mem x (show (-1e6 : Rat) ≤ 1e6 by norm_num)).2
  apply truncate_le
  exact hclamp.trans_eq (by norm_num)

end MusicPart.Exact

namespace MusicPart.Note

/-! ### The bounds of notes -/

@[simp]
theorem shortest_eq : (shortest : Rat) = 1 / 16 := by
  rw [shortest]
  norm_num

@[simp]
theorem gap_eq : (gap : Rat) = 1 / 16 := by
  rw [gap]
  norm_num

@[simp]
theorem together_eq : (together : Rat) = 1 / 20 := by
  rw [together]
  norm_num

@[simp]
theorem slack_eq : (slack : Rat) = 1 / 10 ^ 9 := by
  rw [slack]
  norm_num

theorem finish_eq (n : Note Rat) : n.finish = n.start + n.duration := rfl

end MusicPart.Note
