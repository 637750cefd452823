import MusicPart.Proofs.Millionths
import MusicPart.Proofs.Rereading

/-!
# Written numbers

A finite number that is written and read again comes back with an error of a millionth, or of a
small part of it if it is large, as long as its text has room for all digits before the point. A
number with more digits loses the last of them, and what is read is ten times too small.
-/

namespace MusicPart

namespace Binary64

open Float.Model
open Float.Model.UnpackedFloat
open Numeral (Decimal)

/-! ### Reading decimals -/

variable {m k : Nat}

theorem approximates_ofInt (m : Nat) :
    Approximates m (unpacked (Quantity.ofInt (m : Int) : Float)) := by
  rcases Nat.eq_zero_or_pos m with rfl | hpos
  · rw [Nat.cast_zero]
    exact unpacked_zero ▸ approximates_zero .positive
  · have hround := (roundsTo_ofInt hpos).attains
    rw [← rounded_of_nonneg m.cast_nonneg] at hround
    exact .attains hround

/-- Short digits are divided by a power of ten from a table. -/
theorem approximates_of_short (hk : k ≤ 6) (hm : m < 2 ^ 53) :
    Approximates (m / 10 ^ k) (unpacked (Float.ofScientific m true k)) := by
  obtain ⟨_, hpower⟩ := table_eq hk
  have hten : 10 ^ k < 2 ^ 53 :=
    (Nat.pow_le_pow_right (by decide) hk).trans_lt (by norm_num)
  have hrange : m < 2 ^ 53 ∧ k ≤ 22 := ⟨hm, by omega⟩
  have heq : Float.ofScientific m true k = whole .positive m / whole .positive (10 ^ k) := by
    rw [Float.ofScientific, dif_pos hrange]
    simp only [if_true, toFloat_toUInt64 hm, hpower]
  have hdividend : Quantity.value? (whole .positive m) = some (m : Rat) := value?_whole hm
  have hdivisor : Quantity.value? (whole .positive (10 ^ k)) = some ((10 : Rat) ^ k) := by
    refine (value?_whole hten).trans ?_
    simp [Sign.apply]
  rw [heq]
  exact approximates_div hdividend hdivisor (by positivity)

theorem approximates_of_long (hk : k ≤ 6) (hkpos : 0 < k) (hm : 2 ^ 53 ≤ m) :
    Approximates (m / 10 ^ k) (unpacked (Float.ofScientific m true k)) := by
  have hpos : 0 < m := lt_of_lt_of_le (by norm_num) hm
  have hexponent : (if true = true then Int.negOfNat k else Int.ofNat k) = -k := by
    rw [if_pos rfl, Int.negOfNat_eq]
    rfl
  have hlarge : ¬(-(k : Int) : Int) > 2 ^ Format.binary64.exponentBits := by
    change ¬(-(k : Int)) > 2 ^ 11
    omega
  have hsmall : ¬(-(k : Int)) < -(2 ^ Format.binary64.exponentBits + (m.log2 : Int)) := by
    change ¬(-(k : Int)) < -(2 ^ 11 + (m.log2 : Int))
    omega
  have hpower : (- -(k : Int)).toNat = k := by omega
  rw [Float.ofScientific, dif_neg fun h => absurd h.1 hm.not_gt, hexponent]
  change Approximates _ (Float.Model.pack
    (UnpackedFloat.ofScientific Format.binary64 m (-(k : Int)))).unpack
  rw [UnpackedFloat.ofScientific, dif_neg hpos.ne', if_neg hlarge, if_neg hsmall,
    if_neg (by omega)]
  have hquotient := approximates_div_finite .positive .positive (e := 0) (f := 0) hpos
    (Nat.pow_pos (n := (- -(k : Int)).toNat) (by decide : 0 < 10))
  rw [magnitude_positive, magnitude_positive, zpow_zero, mul_one, mul_one] at hquotient
  have hvalue : ((m : Rat) / ((10 ^ (- -(k : Int)).toNat : Nat) : Rat)) = m / 10 ^ k := by
    rw [hpower]
    push_cast
    rfl
  rwa [hvalue] at hquotient

theorem approximates_ofScientific (hk : k ≤ 6) : Approximates (m / 10 ^ k)
    (unpacked (OfScientific.ofScientific m (-(k : Int) < 0) k)) := by
  rcases Nat.eq_zero_or_pos k with rfl | hkpos
  · rw [pow_zero, div_one]
    exact approximates_ofInt m
  · have hsign : decide (-(k : Int) < 0) = true := by simpa using hkpos
    rw [hsign]
    rcases lt_or_ge m (2 ^ 53) with hm | hm
    · exact approximates_of_short hk hm
    · exact approximates_of_long hk hkpos hm

theorem abs_decimal_le (hm : m < 10 ^ 63) (k : Nat) :
    |(m : Rat) / 10 ^ k| ≤ 2 ^ (1023 : Int) := by
  rw [abs_of_nonneg (by positivity)]
  calc (m : Rat) / 10 ^ k ≤ m := div_le_self m.cast_nonneg (one_le_pow₀ (by norm_num))
    _ ≤ 2 ^ (240 : Int) := by
        have hm : (m : Rat) < 10 ^ 63 := by exact_mod_cast hm
        exact hm.le.trans (by norm_num)
    _ ≤ 2 ^ (1023 : Int) := zpow_le_zpow_right₀ (by norm_num) (by decide)

theorem le_abs_decimal (hk : k ≤ 6) (hne : (m : Rat) / 10 ^ k ≠ 0) :
    2 ^ (-1022 : Int) ≤ |(m : Rat) / 10 ^ k| := by
  have hone : (1 : Rat) ≤ m := by
    have hpos : 0 < m := Nat.pos_of_ne_zero fun h => hne (by simp [h])
    exact_mod_cast hpos
  rw [abs_of_nonneg (by positivity)]
  calc (2 : Rat) ^ (-1022 : Int) ≤ 2 ^ (-20 : Int) :=
        zpow_le_zpow_right₀ (by norm_num) (by decide)
    _ ≤ 1 / 10 ^ 6 := by norm_num
    _ ≤ m / 10 ^ k :=
        div_le_div₀ m.cast_nonneg hone (by positivity) (pow_le_pow_right₀ (by norm_num) hk)

/-- A decimal of moderate length is read as the number nearest to it. -/
theorem value?_ofScientific (hm : m < 10 ^ 63) (hk : k ≤ 6) :
    Quantity.value? (OfScientific.ofScientific m (-(k : Int) < 0) k : Float) =
      some (rounded (m / 10 ^ k)) :=
  (approximates_ofScientific hk).value?_eq_rounded (abs_decimal_le hm k) (le_abs_decimal hk)

theorem exists_finite?_text (d : Decimal) (hlength : (d.whole ++ d.fraction).length ≤ 63)
    (hplaces : d.fraction.length ≤ 6) : ∃ y : Float, Numeral.finite? d.text = some y ∧
      Quantity.value? y = some (rounded d.value) := by
  have hdigits : Text.digitsValue (d.whole ++ d.fraction) < 10 ^ 63 := by
    refine (Text.digitsValue_lt fun b hb => ?_).trans_le (Nat.pow_le_pow_right (by decide) hlength)
    rcases List.mem_append.mp hb with hb | hb
    · exact d.whole_digits b hb
    · exact d.fraction_digits b hb
  have hunsigned := value?_ofScientific hdigits hplaces
  obtain ⟨y, hy⟩ : ∃ y : Float, y = Numeral.signed d.negative (OfScientific.ofScientific
    (Text.digitsValue (d.whole ++ d.fraction)) (-(d.fraction.length : Int) < 0)
      d.fraction.length) := ⟨_, rfl⟩
  have hsigned : Quantity.value? y = some (rounded d.value) := by
    rw [hy, Numeral.signed, Decimal.value]
    cases d.negative with
    | false => exact hunsigned
    | true => exact (value?_neg hunsigned).trans (congrArg some (rounded_neg _).symm)
  refine ⟨y, ?_, hsigned⟩
  rw [d.finite?_text, ← hy]
  exact Option.filter_eq_some_iff.mpr ⟨rfl, Option.isSome_of_eq_some hsigned⟩

end Binary64

namespace SixPlaces

open Binary64

variable {x : Float} {a r : Rat}

/-! ### Room for the digits -/

theorem natAbs_roundHalfEven_le {m : Nat} (h : |r| ≤ m) :
    (Quantity.roundHalfEven r).natAbs ≤ m := by
  obtain ⟨hlow, hhigh⟩ := abs_le.mp h
  have hlow : Quantity.roundHalfEven ((-m : Int) : Rat) ≤ Quantity.roundHalfEven r :=
    roundHalfEven_mono (by push_cast; exact hlow)
  have hhigh : Quantity.roundHalfEven r ≤ Quantity.roundHalfEven ((m : Int) : Rat) :=
    roundHalfEven_mono hhigh
  rw [roundHalfEven_intCast] at hlow hhigh
  omega

theorem le_natAbs_roundHalfEven {m : Nat} (h : (m : Rat) ≤ |r|) :
    m ≤ (Quantity.roundHalfEven r).natAbs := by
  rcases le_abs.mp h with h | h
  · have hle : Quantity.roundHalfEven ((m : Int) : Rat) ≤ Quantity.roundHalfEven r :=
      roundHalfEven_mono h
    rw [roundHalfEven_intCast] at hle
    omega
  · have hle : Quantity.roundHalfEven r ≤ Quantity.roundHalfEven ((-m : Int) : Rat) :=
      roundHalfEven_mono (by push_cast; linarith)
    rw [roundHalfEven_intCast] at hle
    omega

/-- The digits before the point fit if there are at most so many of them. -/
theorem natAbs_lt_iff {k s : Nat} (h : Edge k s) (hx : Quantity.value? x = some a)
    (hr : Quantity.value? (Quantity.roundTo 1e6 x) = some r) :
    (Quantity.roundHalfEven (r * 1000000)).natAbs < 10 ^ (6 + k) ↔ |a| < 10 ^ k := by
  constructor
  · intro hlt
    by_contra hge
    have hle := h.le_abs_roundTo hx hr (not_lt.mp hge)
    refine absurd hlt (not_lt.mpr (le_natAbs_roundHalfEven ?_))
    rw [abs_mul_million, pow_add, mul_comm]
    push_cast
    linarith
  · intro ha
    have hle := h.abs_roundTo_le hx hr ha
    have hbound : |r * 1000000| ≤ ((10 ^ k / 2 ^ s * 2 ^ s * 1000000 : Nat) : Rat) := by
      rw [abs_mul_million]
      rw [lastBelow] at hle
      push_cast at hle ⊢
      linarith
    refine (natAbs_roundHalfEven_le hbound).trans_lt ?_
    have hlt := h.lt
    rw [lastBelow] at hlt
    have hlt : 10 ^ k / 2 ^ s * 2 ^ s < 10 ^ k := by exact_mod_cast hlt
    rw [pow_add]
    omega

theorem roundHalfEven_nonneg (h : 0 ≤ r) : 0 ≤ Quantity.roundHalfEven r := by
  rw [← roundHalfEven_intCast 0]
  exact roundHalfEven_mono (by exact_mod_cast h)

theorem roundHalfEven_nonpos (h : r ≤ 0) : Quantity.roundHalfEven r ≤ 0 := by
  rw [← roundHalfEven_intCast 0]
  exact roundHalfEven_mono (by exact_mod_cast h)

/-- There is room for sixty-three digits before the point, or for a sign and sixty-two. -/
theorem fits_iff (hx : Quantity.value? x = some a)
    (hr : Quantity.value? (Quantity.roundTo 1e6 x) = some r) {z : Int}
    (hz : z = Quantity.roundHalfEven (r * 1000000)) :
    z.natAbs < 10 ^ (6 + room (z < 0)) ↔ -10 ^ 62 < a ∧ a < 10 ^ 63 := by
  have h62 := natAbs_lt_iff edge_62 hx hr
  have h63 := natAbs_lt_iff edge_63 hx hr
  rw [← hz] at h62 h63
  rcases lt_or_ge |a| (10 ^ 62) with hfew | hmany
  · have hroom : 62 ≤ room (z < 0) := by cases decide (z < 0) <;> decide
    refine iff_of_true ((h62.mpr hfew).trans_le ?_) ?_
    · exact Nat.pow_le_pow_right (by decide) (by omega)
    · rw [abs_lt] at hfew
      exact ⟨hfew.1, hfew.2.trans (by norm_num)⟩
  · have hone : 1 ≤ |a| := (by norm_num : (1 : Rat) ≤ 10 ^ 62).trans hmany
    have hsix := eq_sixPlaces hx hone hr
    rcases le_or_gt 0 a with ha | ha
    · have hz0 : 0 ≤ z := by
        rw [hz, hsix]
        exact roundHalfEven_nonneg (mul_nonneg (sixPlaces_nonneg ha) (by norm_num))
      have hroom : room (z < 0) = 63 := by
        rw [decide_eq_false (not_lt.mpr hz0)]
        rfl
      rw [hroom, h63, abs_of_nonneg ha]
      exact (and_iff_right (lt_of_lt_of_le (by norm_num) ha)).symm
    · have hz0 : z ≤ 0 := by
        rw [hz, hsix, ← neg_neg a, sixPlaces_neg]
        refine roundHalfEven_nonpos (mul_nonpos_of_nonpos_of_nonneg ?_ (by norm_num))
        exact neg_nonpos.mpr (sixPlaces_nonneg (neg_nonneg.mpr ha.le))
      have hnot : ¬z.natAbs < 10 ^ (6 + 62) := h62.not.mpr (not_lt.mpr hmany)
      have hneg : z < 0 := by
        refine lt_of_le_of_ne hz0 fun hzero => hnot ?_
        rw [hzero]
        norm_num
      have hroom : room (z < 0) = 62 := by
        rw [decide_eq_true hneg]
        rfl
      rw [hroom, h62, abs_of_neg ha]
      constructor
      · intro hlt
        exact ⟨by linarith, by linarith⟩
      · rintro ⟨hlt, -⟩
        linarith

/-! ### Written and read -/

/-- What is written of a number is read as a number near to it just where there is room for its
digits. -/
theorem near_iff (hx : Quantity.value? x = some a)
    (hr : Quantity.value? (Quantity.roundTo 1e6 x) = some r) :
    |a - rounded (millionths (Quantity.roundHalfEven (r * 1000000))).value| ≤
      max (1 / 10 ^ 6) (|a| / 10 ^ 12) ↔ -10 ^ 62 < a ∧ a < 10 ^ 63 := by
  obtain ⟨z, hz⟩ : ∃ z, z = Quantity.roundHalfEven (r * 1000000) := ⟨_, rfl⟩
  have hfits := fits_iff hx hr hz
  have hnearest : |(z : Rat) - r * 1000000| ≤ 1 / 2 := hz ▸ abs_roundHalfEven_sub_le _
  obtain ⟨p, n, hrounds⟩ := exists_rounds hx hr
  rw [← hz, ← hfits]
  constructor
  · intro hnear
    by_contra hlong
    have hfew := ten_mul_abs_value_millionths (not_lt.mp hlong)
    have habs : (z.natAbs : Rat) = |(z : Rat)| := by
      rw [← Int.cast_abs, Int.abs_eq_natAbs, Int.cast_natCast]
    rw [habs] at hfew
    refine hrounds.not_near hnearest hfew (abs_rounded_sub_le _) ?_ hnear
    rw [hfits, not_and_or, not_lt, not_lt] at hlong
    rcases hlong with ha | ha
    · exact (by linarith : (1 : Rat) ≤ -a).trans (neg_le_abs a)
    · exact (by linarith : (1 : Rat) ≤ a).trans (le_abs_self a)
  · intro hshort
    obtain ⟨hone, hexact⟩ := value_millionths hshort
    exact hrounds.near hnearest hone hexact (abs_rounded_sub_le _)

theorem render_number (x : Float) (indent : Int) :
    (Json.Value.number x).render indent = render x := by
  simp [Json.Value.render, Json.Value.events, Json.render, Json.Layout.run, Json.Layout.step,
    Json.Layout.separator, Json.Event.number]

/-- The text of a finite number is read as a number that is near to it, unless the number has more
digits before its point than there is room for. -/
theorem parse_render_near_iff (hx : Quantity.value? x = some a) :
    (∃ (y : Float) (b : Rat), Json.parse (render x) = .ok (.number y) ∧
      Quantity.value? y = some b ∧ |a - b| ≤ max (1 / 10 ^ 6) (|a| / 10 ^ 12)) ↔
        -10 ^ 62 < a ∧ a < 10 ^ 63 := by
  have hfinite : Quantity.isFinite x = true := Option.isSome_of_eq_some hx
  have hparse (y : Float) : Json.parse (render x) = .ok (.number y) ↔
      Json.Value.rereadNumber? x = some (.number y) := by
    rw [← render_number x 0]
    exact Json.parse_render_eq_ok (Nat.zero_le _)
  simp only [hparse]
  cases hr : Quantity.value? (Quantity.roundTo 1e6 x) with
  | none =>
      have hreread : Json.Value.rereadNumber? x = none := by
        simp [Json.Value.rereadNumber?, Json.Value.overflows, Quantity.isFinite, hr, hx]
      refine iff_of_false ?_ fun hroom => ?_
      · rintro ⟨y, b, hy, -⟩
        simp [hreread] at hy
      · have habs : |a| ≤ 10 ^ 64 := by
          rw [abs_le]
          constructor <;> linarith [hroom.1, hroom.2]
        obtain ⟨r, hsome⟩ := exists_value?_roundTo hx habs
        simp [hr] at hsome
  | some r =>
      obtain ⟨hlength, hplaces⟩ := length_millionths (Quantity.roundHalfEven (r * 1000000))
      obtain ⟨y, hy, hvalue⟩ := exists_finite?_text _ hlength hplaces
      have hreread : Json.Value.rereadNumber? x = some (.number y) := by
        have htext : (Numeral.finite? (render x) : Option Float) = some y := by
          rw [render_eq_text hfinite hr, hy]
        simp [Json.Value.rereadNumber?, Json.Value.overflows, Quantity.isFinite, hr, hx, htext]
      rw [← near_iff hx hr]
      constructor
      · rintro ⟨w, b, hw, hb, hnear⟩
        obtain rfl : y = w := by
          rw [hreread] at hw
          injection hw with hw
          injection hw
        obtain rfl : rounded _ = b := Option.some.inj (hvalue.symm.trans hb)
        exact hnear
      · exact fun hnear => ⟨y, _, hreread, hvalue, hnear⟩

/-- The last of sixty-four digits is lost. -/
theorem not_near_sixtyFourDigits :
    Quantity.value? (1e63 : Float) =
        some 1000000000000000057857959942726969827393378689175040438172647424 ∧
      ¬∃ (y : Float) (b : Rat), Json.parse (render (1e63 : Float)) = .ok (.number y) ∧
        Quantity.value? y = some b ∧
          |1000000000000000057857959942726969827393378689175040438172647424 - b| ≤
            max (1 / 10 ^ 6)
              (|1000000000000000057857959942726969827393378689175040438172647424| / 10 ^ 12) := by
  have hvalue : Quantity.value? (1e63 : Float) =
      some 1000000000000000057857959942726969827393378689175040438172647424 := by decide +kernel
  refine ⟨hvalue, fun hnear => ?_⟩
  have hroom := ((parse_render_near_iff hvalue).mp hnear).2
  norm_num at hroom

end SixPlaces

end MusicPart
