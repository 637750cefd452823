import MusicPart.Proofs.Sums

/-!
# Rounding errors

A rounded number is at most half a unit in its last place away from the exact one. What was taken
from a number can therefore be more than the rest leaves room for when it is added back, but by no
more than that half, and a number with an even mantissa is not exceeded at all, as ties go to it.
-/

namespace MusicPart.Binary64

open Float.Model
open Float.Model.UnpackedFloat

/-! ### Units in the last place -/

/-- The unit in the last place of a mantissa that takes all its bits. -/
def lastPlace (x : Rat) : Rat := 2 ^ fullExponent x

theorem lastPlace_pos (x : Rat) : 0 < lastPlace x := zpow_pos (by norm_num) _

theorem lastPlace_mono {x y : Rat} (hx : 0 < x) (h : x ≤ y) : lastPlace x ≤ lastPlace y :=
  zpow_le_zpow_right₀ (by norm_num) (Int.sub_le_sub_right (Int.log_mono_right hx h) 52)

theorem nearest_eq (x : Rat) :
    nearest x = Quantity.roundHalfEven (x / lastPlace x) * lastPlace x := rfl

theorem lastPlace_mul_le {x : Rat} (h : 0 < x) :
    2 ^ 52 * lastPlace x ≤ x ∧ x < 2 ^ 53 * lastPlace x := by
  obtain ⟨hlow, hhigh⟩ := full_mantissa h
  exact ⟨(le_div_iff₀ (lastPlace_pos x)).mp hlow, (div_lt_iff₀ (lastPlace_pos x)).mp hhigh⟩

/-- Numbers up to the next power of two have one unit. -/
theorem lastPlace_eq_of_lt {x y : Rat} (hx : 0 < x) (h : x ≤ y) (hy : y < 2 ^ 53 * lastPlace x) :
    lastPlace y = lastPlace x := by
  have hmono : fullExponent x ≤ fullExponent y :=
    Int.sub_le_sub_right (Int.log_mono_right hx h) 52
  rw [lastPlace, lastPlace]
  congr 1
  refine le_antisymm (not_lt.mp fun hlt => absurd hy (not_lt.mpr ?_)) hmono
  calc 2 ^ 53 * lastPlace x = 2 ^ 52 * 2 ^ (fullExponent x + 1) := by
        rw [lastPlace, zpow_add₀ (by norm_num)]
        ring
    _ ≤ 2 ^ 52 * lastPlace y := by
        rw [lastPlace]
        gcongr
        · norm_num
        · omega
    _ ≤ y := (lastPlace_mul_le (hx.trans_le h)).1

/-! ### Errors -/

theorem abs_roundHalfEven_sub_le (x : Rat) : |(Quantity.roundHalfEven x : Rat) - x| ≤ 1 / 2 := by
  have hlow := Int.floor_le x
  have hhigh := Int.lt_floor_add_one x
  rw [roundHalfEven_eq, abs_le]
  split_ifs <;> push_cast <;> constructor <;> linarith

theorem abs_nearest_sub_le (x : Rat) : |nearest x - x| ≤ lastPlace x / 2 := by
  have hpos := lastPlace_pos x
  have herror : nearest x - x =
      (Quantity.roundHalfEven (x / lastPlace x) - x / lastPlace x) * lastPlace x := by
    rw [nearest_eq, sub_mul, div_mul_cancel₀ _ hpos.ne']
  rw [herror, abs_mul, abs_of_pos hpos]
  linarith [mul_le_mul_of_nonneg_right (abs_roundHalfEven_sub_le (x / lastPlace x)) hpos.le]

theorem rounded_of_nonneg {x : Rat} (h : 0 ≤ x) : rounded x = nearest x := if_neg h.not_gt

theorem rounded_zero : rounded 0 = 0 := (rounded_of_nonneg le_rfl).trans nearest_zero

theorem rounded_nonneg {x : Rat} (h : 0 ≤ x) : 0 ≤ rounded x :=
  (rounded_of_nonneg h).symm ▸ nearest_nonneg h

theorem abs_rounded_sub_le (x : Rat) : |rounded x - x| ≤ |x| / 2 ^ 53 := by
  have hnonneg {y : Rat} (hy : 0 ≤ y) : |rounded y - y| ≤ |y| / 2 ^ 53 := by
    rcases hy.eq_or_lt with rfl | hpos
    · simp [rounded_zero]
    · have hplace := (lastPlace_mul_le hpos).1
      have herror := abs_nearest_sub_le y
      rw [rounded_of_nonneg hy, abs_of_pos hpos, le_div_iff₀ (by norm_num)]
      linarith
  rcases le_total 0 x with hx | hx
  · exact hnonneg hx
  · have hneg := hnonneg (neg_nonneg.mpr hx)
    rwa [rounded_neg, neg_sub_neg, abs_sub_comm, abs_neg] at hneg

theorem limit_eq : limit = 2 * 2 ^ (1023 : Int) := by
  rw [limit, show (1024 : Int) = 1 + 1023 by decide, zpow_add₀ (by norm_num), zpow_one]

theorem abs_rounded_lt {x : Rat} (hx : |x| ≤ 2 ^ (1023 : Int)) : |rounded x| < limit := by
  have herror := abs_le.mp (abs_rounded_sub_le x)
  have hpos : (0 : Rat) < 2 ^ (1023 : Int) := by positivity
  have hsmall : |x| / 2 ^ 53 ≤ |x| / 2 :=
    div_le_div_of_nonneg_left (abs_nonneg x) (by norm_num) (by norm_num)
  rw [limit_eq, abs_lt]
  generalize (2 : Rat) ^ (1023 : Int) = half at hx hpos
  constructor <;> linarith [le_abs_self x, neg_abs_le x]

variable {l t x : Rat}

/-- What was taken away, added to what was left after rounding. -/
theorem add_rounded_sub_le (hl : 0 < l) (ht : 0 ≤ t) (htl : t ≤ l) :
    t + rounded (l - t) ≤ l + lastPlace l / 2 := by
  rcases htl.eq_or_lt with rfl | hlt
  · rw [sub_self, rounded_zero]
    linarith [lastPlace_pos t]
  · have hrest : 0 < l - t := sub_pos.mpr hlt
    have hplace : lastPlace (l - t) ≤ lastPlace l := lastPlace_mono hrest (by linarith)
    rw [rounded_of_nonneg hrest.le]
    linarith [(abs_le.mp (abs_nearest_sub_le (l - t))).2]

/-- A number that is rounded to at most a bound exceeds it by half a unit at most. -/
theorem le_of_nearest_le (hl : 0 < l) (h : nearest x ≤ l) : x ≤ l + lastPlace l / 2 := by
  rcases le_or_gt x l with hle | hlt
  · linarith [lastPlace_pos l]
  · have hx : 0 < x := hl.trans hlt
    have hbelow : x < 2 ^ 53 * lastPlace l := by
      by_contra hbeyond
      have hpower : 2 ^ 53 * lastPlace l = ((1 : Nat) : Rat) * 2 ^ (53 + fullExponent l) := by
        rw [lastPlace, zpow_add₀ (by norm_num), Nat.cast_one, one_mul]
        norm_cast
      have hrounded : 2 ^ 53 * lastPlace l ≤ nearest x := by
        rw [hpower, ← nearest_fitting Nat.one_pos (by norm_num)]
        refine nearest_mono (magnitude_pos Nat.one_pos) ?_
        rw [← hpower]
        exact not_lt.mp hbeyond
      exact absurd (hrounded.trans h) (not_le.mpr (lastPlace_mul_le hl).2)
    have hplace : lastPlace x = lastPlace l := lastPlace_eq_of_lt hl hlt.le hbelow
    have herror := (abs_le.mp (abs_nearest_sub_le x)).1
    rw [hplace] at herror
    linarith

/-! ### Even mantissas -/

/-- The last bit of the mantissa is zero. -/
def IsEven (x : Rat) : Prop := ∃ k : Int, x = 2 * k * lastPlace x

theorem roundHalfEven_le_of_even {k : Int} (h : x ≤ 2 * k + 1 / 2) :
    Quantity.roundHalfEven x ≤ 2 * k := by
  have hhalf : Quantity.roundHalfEven (2 * k + 1 / 2 : Rat) = 2 * k := by
    have hfloor : ⌊(2 * k + 1 / 2 : Rat)⌋ = 2 * k := by
      rw [Int.floor_eq_iff]
      push_cast
      constructor <;> linarith
    rw [roundHalfEven_eq, hfloor, if_neg (by push_cast; linarith), if_neg (by push_cast; linarith),
      if_pos (by omega)]
  exact hhalf ▸ roundHalfEven_mono h

/-- Half a unit more than a number with an even mantissa is rounded to that number. -/
theorem nearest_le_of_isEven (hl : 0 < l) (heven : IsEven l) (hx : 0 < x)
    (h : x ≤ l + lastPlace l / 2) : nearest x ≤ l := by
  obtain ⟨k, hk⟩ := heven
  have hpos := lastPlace_pos l
  have hmantissa : l / lastPlace l = 2 * k := by
    rw [div_eq_iff hpos.ne']
    exact hk
  have hbelow : l + lastPlace l / 2 < 2 ^ 53 * lastPlace l := by
    have hlt : l / lastPlace l < 2 ^ 53 := (div_lt_iff₀ hpos).mpr (lastPlace_mul_le hl).2
    rw [hmantissa] at hlt
    have hint : 2 * k + 1 ≤ 2 ^ 53 := by
      have hlt : 2 * k < 2 ^ 53 := by exact_mod_cast hlt
      omega
    have hle : (2 * k + 1 : Rat) ≤ 2 ^ 53 := by exact_mod_cast hint
    calc l + lastPlace l / 2 < (2 * k + 1) * lastPlace l := by
          rw [add_mul, ← hk]
          linarith
      _ ≤ 2 ^ 53 * lastPlace l := by gcongr
  have hmore : l ≤ l + lastPlace l / 2 := by linarith
  have hplace : lastPlace (l + lastPlace l / 2) = lastPlace l :=
    lastPlace_eq_of_lt hl hmore hbelow
  calc nearest x ≤ nearest (l + lastPlace l / 2) := nearest_mono hx h
    _ = Quantity.roundHalfEven (2 * k + 1 / 2) * lastPlace l := by
        rw [nearest_eq, hplace, add_div, hmantissa, div_right_comm, div_self hpos.ne']
    _ ≤ (2 * k : Int) * lastPlace l := by
        gcongr
        exact roundHalfEven_le_of_even le_rfl
    _ = l := by
        rw [Int.cast_mul, Int.cast_ofNat]
        exact hk.symm

/-! ### Finite results -/

variable {a b r : Rat} {y z : Float}

/-- The value of a finite quantity needs no rounding. -/
theorem rounded_of_value? (h : Quantity.value? y = some a) : rounded a = a ∧ |a| < limit := by
  obtain ⟨hfinite, rfl⟩ := value?_eq_some.mp h
  have hattains := attains_unpacked hfinite
  generalize unpacked y = u at hfinite hattains
  cases hattains with
  | finite _ hvalue hbound => exact ⟨hvalue.symm, hvalue ▸ hbound⟩
  | above => cases hfinite
  | below => cases hfinite

theorem attains_sub_of_value? (hy : Quantity.value? y = some a) (hz : Quantity.value? z = some b) :
    Attains (rounded (a - b)) (unpacked (y - z)) := by
  obtain ⟨hfy, rfl⟩ := value?_eq_some.mp hy
  obtain ⟨hfz, rfl⟩ := value?_eq_some.mp hz
  exact attains_sub hfy hfz

theorem attains_add_of_value? (hy : Quantity.value? y = some a) (hz : Quantity.value? z = some b) :
    Attains (rounded (a + b)) (unpacked (y + z)) := by
  rw [add_eq_sub, add_comm a b, ← sub_neg_eq_add]
  exact attains_sub_of_value? hz (value?_neg hy)

theorem isNumber_of_sub (h : Quantity.IsNumber (y - z)) :
    Quantity.IsNumber y ∧ Quantity.IsNumber z := by
  rw [isNumber_iff, unpacked_sub] at h
  rw [isNumber_iff, isNumber_iff]
  constructor
  · intro hy
    rw [hy] at h
    exact h unpacked_notANumber
  · intro hz
    rw [hz, sub_notANumber] at h
    exact h unpacked_notANumber

theorem isNumber_left_of_add (h : Quantity.IsNumber (y + z)) : Quantity.IsNumber y := by
  rw [add_eq_sub] at h
  exact isNumber_neg.mp (isNumber_of_sub h).2

theorem Attains.value? (h : Attains r (unpacked z)) (hr : |r| < limit) :
    Quantity.value? z = some r := by
  generalize hu : unpacked z = u at h
  cases h with
  | finite hfinite hvalue => exact value?_eq_some.mpr (by rw [hu]; exact ⟨hfinite, hvalue⟩)
  | above hle => linarith [le_abs_self r]
  | below hle => linarith [neg_abs_le r]

/-- Of a finite quantity taken from itself nothing is left. -/
theorem value?_sub_self (h : Quantity.isFinite y = true) : Quantity.value? (y - y) = some 0 := by
  obtain ⟨a, ha⟩ := Option.isSome_iff_exists.mp h
  have hattains := attains_sub_of_value? ha ha
  rw [sub_self, rounded_zero] at hattains
  exact hattains.value? (by rw [abs_zero]; exact limit_pos)

/-- What is not above a finite quantity was rounded to at most its value. -/
theorem Attains.le_of_not_lt (h : Attains r (unpacked z)) (hy : Quantity.value? y = some b)
    (hle : ¬y < z) : r ≤ b := by
  have hfinite := (value?_eq_some.mp hy).1
  have hbound := (rounded_of_value? hy).2
  generalize hu : unpacked z = u at h
  cases h with
  | finite hz hvalue =>
      have hz : Quantity.value? z = some r := value?_eq_some.mpr (hu ▸ ⟨hz, hvalue⟩)
      rw [lt_iff_of_value? hy hz] at hle
      exact le_of_not_gt hle
  | above => exact absurd (lt_of_infinity hfinite hu) hle
  | below hbelow => linarith [(abs_lt.mp hbound).1]

/-- What is taken from a larger amount leaves no more than that. -/
theorem value?_sub_of_le (hy : Quantity.value? y = some a) (hz : Quantity.value? z = some b)
    (hb : 0 ≤ b) (hba : b ≤ a) : Quantity.value? (y - z) = some (rounded (a - b)) ∧
      0 ≤ rounded (a - b) ∧ rounded (a - b) ≤ a := by
  obtain ⟨hvalue, hbound⟩ := rounded_of_value? hy
  have hnonneg : 0 ≤ rounded (a - b) := rounded_nonneg (sub_nonneg.mpr hba)
  have hle : rounded (a - b) ≤ a := hvalue ▸ rounded_mono (by linarith)
  refine ⟨(attains_sub_of_value? hy hz).value? ?_, hnonneg, hle⟩
  rw [abs_of_nonneg hnonneg]
  exact hle.trans_lt ((le_abs_self a).trans_lt hbound)

theorem value?_greater (hy : Quantity.value? y = some a) (hz : Quantity.value? z = some b) :
    Quantity.value? (Quantity.greater y z) = some (max a b) := by
  rw [Quantity.greater]
  split
  · rename_i hlt
    rw [hz, max_eq_right ((lt_iff_of_value? hy hz).mp hlt).le]
  · rename_i hle
    rw [lt_iff_of_value? hy hz] at hle
    rw [hy, max_eq_left (not_lt.mp hle)]

theorem le_of_value? (hy : Quantity.value? y = some a) (hz : Quantity.value? z = some b)
    (h : a ≤ b) : y ≤ z := by
  have hny := Quantity.Lawful.isNumber_of_isFinite (Option.isSome_of_eq_some hy)
  have hnz := Quantity.Lawful.isNumber_of_isFinite (Option.isSome_of_eq_some hz)
  refine Quantity.Ordered.le_iff.mpr ⟨hny, hnz, ?_⟩
  rw [lt_iff_of_value? hz hy]
  exact not_lt.mpr h

end MusicPart.Binary64
