import MusicPart.Proofs.Rounding

/-!
# Differences

Taking the same amount from two times keeps their order. In binary64 a difference is rounded, and it
may be too large for the format; rounding keeps the order of all numbers, those below zero and those
with short mantissas included.
-/

namespace MusicPart

namespace Quantity

variable {α : Type} [Quantity α]

/-- What both arithmetics obey where times are compared and moved. -/
class Ordered (α : Type) [Quantity α] : Prop extends Lawful α where
  le_iff {a b : α} : a ≤ b ↔ IsNumber a ∧ IsNumber b ∧ ¬b < a
  not_sub_lt_sub {a b c : α} : ¬b < a → ¬b - c < a - c

namespace Ordered

variable [Ordered α] {a b c : α}

theorem not_lt_of_le (h : a ≤ b) : ¬b < a := (le_iff.mp h).2.2

theorem le_of_lt (h : a < b) : a ≤ b :=
  le_iff.mpr ⟨(Lawful.isNumber_of_lt h).1, (Lawful.isNumber_of_lt h).2, Lawful.not_lt_of_lt h⟩

theorem le_trans (hab : a ≤ b) (hbc : b ≤ c) : a ≤ c := by
  obtain ⟨ha, hb, hba⟩ := le_iff.mp hab
  obtain ⟨-, hc, hcb⟩ := le_iff.mp hbc
  exact le_iff.mpr ⟨ha, hc, Lawful.not_lt_trans hb hba hcb⟩

end Ordered

/-! ### Clamping -/

section Clamp

variable {low high x y : α}

theorem clamp_of_not_lt (hlow : ¬x < low) (hhigh : ¬high < x) : clamp x low high = x := by
  rw [clamp, if_neg hlow, if_neg hhigh]

theorem clamp_within [Lawful α] (hbounds : ¬high < low) :
    ¬clamp x low high < low ∧ ¬high < clamp x low high := by
  have hself (a : α) : ¬a < a := fun haa => Lawful.not_lt_of_lt haa haa
  rw [clamp]
  split_ifs with hlow hhigh
  · exact ⟨hself low, hbounds⟩
  · exact ⟨hbounds, hself high⟩
  · exact ⟨hlow, hhigh⟩

/-- Clamping keeps the order of times. -/
theorem not_clamp_lt_clamp [Lawful α] (hbounds : ¬high < low) (h : ¬y < x) :
    ¬clamp y low high < clamp x low high := by
  have hself (a : α) : ¬a < a := fun haa => Lawful.not_lt_of_lt haa haa
  rw [clamp, clamp]
  split_ifs with hy hx hhx hhy hx hhx hx hhx
  · exact hself low
  · intro hlt
    obtain ⟨hhigh, hx⟩ := Lawful.isNumber_of_lt hhx
    have hyh := Lawful.not_lt_trans hx (Lawful.not_lt_of_lt hhx) h
    exact Lawful.not_lt_trans hhigh hbounds hyh hy
  · exact fun hlt => Lawful.not_lt_trans (Lawful.isNumber_of_lt hlt).2 hx h hy
  · exact hbounds
  · exact hself high
  · exact hhx
  · exact hy
  · exact Lawful.not_lt_trans (Lawful.isNumber_of_lt hhx).2 (Lawful.not_lt_of_lt hhx) h
  · exact h

end Clamp

end Quantity

/-! ### Binary64 -/

namespace Binary64

open Float.Model
open Float.Model.UnpackedFloat

theorem nearest_zero : nearest 0 = 0 := by
  have hzero := SixPlaces.roundHalfEven_intCast 0
  rw [Int.cast_zero] at hzero
  rw [nearest, zero_div, hzero, Int.cast_zero, zero_mul]

theorem nearest_nonneg {x : Rat} (h : 0 ≤ x) : 0 ≤ nearest x := by
  rcases h.eq_or_lt with rfl | hpos
  · exact nearest_zero.ge
  · have hfull : (0 : Int) ≤ Quantity.roundHalfEven (x / 2 ^ fullExponent x) :=
      le_trans (by norm_num) (roundHalfEven_full hpos).1
    rw [nearest]
    exact mul_nonneg (by exact_mod_cast hfull) (by positivity)

/-- Nothing is rounded where the mantissa fits. -/
theorem nearest_fitting {m : Nat} (hm : 0 < m) (h : m < 2 ^ 53) (e : Int) :
    nearest (m * 2 ^ e) = m * 2 ^ e := by
  have hlog := log2_le h
  have hfull : (m : Rat) * 2 ^ e / 2 ^ ((m.log2 : Int) + e - 52) =
      ((m * 2 ^ (52 - m.log2) : Nat) : Int) := by
    rw [div_eq_iff (by positivity)]
    push_cast
    rw [mul_assoc, ← zpow_natCast, ← zpow_add₀ (by norm_num)]
    congr 2
    omega
  rw [nearest, fullExponent, log_magnitude hm, hfull, SixPlaces.roundHalfEven_intCast, ← hfull]
  exact div_mul_cancel₀ _ (by positivity)

/-- The number nearest to any number, whatever its exponent is. -/
def rounded (x : Rat) : Rat := if x < 0 then -nearest (-x) else nearest x

theorem rounded_neg (x : Rat) : rounded (-x) = -rounded x := by
  rw [rounded, rounded]
  rcases lt_trichotomy x 0 with h | rfl | h
  · rw [if_neg (by linarith), if_pos h, neg_neg]
  · simp [nearest_zero]
  · rw [if_pos (by linarith), if_neg h.not_gt, neg_neg]

theorem rounded_mono {x y : Rat} (h : x ≤ y) : rounded x ≤ rounded y := by
  rw [rounded, rounded]
  rcases lt_or_ge x 0 with hx | hx
  · rw [if_pos hx]
    split
    · rename_i hy
      exact neg_le_neg (nearest_mono (neg_pos.mpr hy) (neg_le_neg h))
    · rename_i hy
      exact (neg_nonpos.mpr (nearest_nonneg (neg_nonneg.mpr hx.le))).trans
        (nearest_nonneg (not_lt.mp hy))
  · rw [if_neg hx.not_gt, if_neg (hx.trans h).not_gt]
    rcases hx.eq_or_lt with rfl | hpos
    · rw [nearest_zero]
      exact nearest_nonneg h
    · exact nearest_mono hpos h

/-! ### Results of rounding -/

/-- What no finite quantity reaches. -/
def limit : Rat := 2 ^ (1024 : Int)

theorem limit_pos : 0 < limit := by
  rw [limit]
  positivity

/-- A quantity with a given value, or an infinity in its place where no quantity is as large. -/
inductive Attains (r : Rat) : UnpackedFloat → Prop
  | finite {u : UnpackedFloat} (hu : u.isFinite = true) (hvalue : magnitude u = r)
      (hbound : |r| < limit) : Attains r u
  | above (h : limit ≤ r) : Attains r (.infinity .positive)
  | below (h : r ≤ -limit) : Attains r (.infinity .negative)

theorem magnitude_neg (u : UnpackedFloat) : magnitude u.neg = -magnitude u := by
  cases u with
  | finite s m e hm =>
      cases s with
      | positive => exact (magnitude_negative m e hm).trans (by rw [magnitude_positive])
      | negative => exact (magnitude_positive m e hm).trans (by rw [magnitude_negative, neg_neg])
  | _ => exact neg_zero.symm

theorem Attains.neg {r : Rat} {u : UnpackedFloat} (h : Attains r u) : Attains (-r) u.neg := by
  cases h with
  | finite hu hvalue hbound =>
      refine .finite ?_ (by rw [magnitude_neg, hvalue]) (by rwa [abs_neg])
      cases u <;> exact hu
  | above h => exact .below (neg_le_neg h)
  | below h => exact .above (le_neg_of_le_neg h)

theorem Attains.ne_notANumber {r : Rat} {u : UnpackedFloat} (h : Attains r u) :
    u ≠ .notANumber := by
  cases h with
  | finite hu => exact ne_notANumber_of_isFinite hu
  | _ => exact nofun

theorem rank_le_infinity (u : UnpackedFloat) :
    rank (.infinity .negative) ≤ rank u ∧ rank u ≤ rank (.infinity .positive) := by
  cases u with
  | notANumber => simp [rank, Prod.Lex.toLex_le_toLex]
  | infinity s => cases s <;> simp [rank, Prod.Lex.toLex_le_toLex]
  | zero s => exact (rank_lt_infinity rfl).imp LT.lt.le LT.lt.le
  | finite s m e hm => exact (rank_lt_infinity rfl).imp LT.lt.le LT.lt.le

theorem Attains.not_lt {x y : Float} {a b : Rat} (hx : Attains a (unpacked x))
    (hy : Attains b (unpacked y)) (h : a ≤ b) : ¬y < x := by
  intro hlt
  have hrank := (lt_iff.mp hlt).2.2
  generalize hux : unpacked x = u at hx hrank
  generalize huy : unpacked y = v at hy hrank
  cases hy with
  | above => exact absurd hrank (rank_le_infinity u).2.not_gt
  | below hb =>
      cases hx with
      | below => exact lt_irrefl _ hrank
      | above ha => linarith [limit_pos]
      | finite _ _ hbound => linarith [(abs_lt.mp hbound).1]
  | finite hv hvalue hbound =>
      cases hx with
      | below => exact absurd hrank (rank_le_infinity v).1.not_gt
      | above ha => linarith [(abs_lt.mp hbound).2]
      | finite hu hvalue' _ =>
          have hxa : Quantity.value? x = some a :=
            value?_eq_some.mpr (by rw [hux]; exact ⟨hu, hvalue'⟩)
          have hyb : Quantity.value? y = some b :=
            value?_eq_some.mpr (by rw [huy]; exact ⟨hv, hvalue⟩)
          exact ((lt_iff_of_value? hyb hxa).mp hlt).not_ge h

theorem two_pow_mul_zpow (k : Nat) (e : Int) : ((2 ^ k : Nat) : Rat) * 2 ^ e = 2 ^ (k + e) := by
  push_cast
  rw [← zpow_natCast, ← zpow_add₀ (by norm_num)]

theorem magnitude_lt_limit {m : Nat} {e : Int} (hm : m < 2 ^ 53) (he : e ≤ 971) :
    (m : Rat) * 2 ^ e < limit := by
  calc (m : Rat) * 2 ^ e < (2 ^ 53 : Nat) * 2 ^ e := by gcongr
    _ ≤ (2 ^ 53 : Nat) * 2 ^ (971 : Int) := by
        gcongr
        norm_num
    _ = limit := two_pow_mul_zpow 53 971

/-- What a positive number with a fitting mantissa and exponent attains is itself. -/
theorem attains_fitting {m : Nat} {e : Int} (hm : 0 < m) (hlt : m < 2 ^ 53) (he : e ≤ 971) :
    Attains (nearest (m * 2 ^ e)) (.finite .positive m e hm) := by
  rw [nearest_fitting hm hlt]
  refine .finite rfl (magnitude_positive m e hm) ?_
  rw [abs_of_pos (magnitude_pos hm)]
  exact magnitude_lt_limit hlt he

theorem RoundsTo.attains {x : Rat} {u : UnpackedFloat} (h : RoundsTo x u) :
    Attains (nearest x) u := by
  cases h with
  | @finite n f hn hfull hlow hhigh hvalue =>
      have hlt : n < 2 ^ 53 := (Nat.log2_lt hn.ne').mp (by omega)
      rw [← hvalue, ← nearest_fitting hn hlt]
      exact attains_fitting hn hlt hhigh
  | @infinity n f hn hfull hhigh hvalue =>
      refine .above ?_
      rw [← hvalue]
      calc limit = (2 ^ 52 : Nat) * 2 ^ (972 : Int) := (two_pow_mul_zpow 52 972).symm
        _ ≤ (2 ^ 52 : Nat) * 2 ^ f := by
            gcongr
            · norm_num
            · omega
        _ ≤ n * 2 ^ f := by
            gcongr
            exact ((Nat.log2_eq_iff hn.ne').mp hfull).1

/-- A subnormal number is unpacked as it was packed. -/
theorem unpack_pack_subnormal (s : Sign) {m : Nat} (hm : 0 < m) (h : m < 2 ^ 52) :
    (Float.Model.pack (.finite s m (-1074) hm)).unpack = .finite s m (-1074) hm := by
  have hlog : ¬m.log2 + 1 = Format.binary64.mantissaBits := by
    have hlog : m.log2 < 52 := (Nat.log2_lt hm.ne').mpr h
    have hbits : Format.binary64.mantissaBits = 53 := rfl
    omega
  have hmantissa : (BitVec.ofNat 52 m).toNat = m := by
    rw [BitVec.toNat_ofNat, Nat.mod_eq_of_lt h]
  have hnonzero : BitVec.ofNat 52 m ≠ 0#52 := by
    intro hzero
    rw [hzero] at hmantissa
    exact hm.ne hmantissa
  rw [unpack_pack, UnpackedFloat.pack]
  dsimp only
  rw [if_neg (by decide), if_neg hlog, UnpackedFloat.unpack]
  simp only [unpackMantissa_packComponents, unpackExponent_packComponents,
    unpackSign_packComponents, ofBitVec_toBitVec, hmantissa]
  rw [if_neg (by decide), if_pos trivial, dif_neg hnonzero]
  rfl

theorem roundWithAccuracy_subnormal (s : Sign) {m : Nat} (hm : 0 < m) (h : m < 2 ^ 52) :
    roundWithAccuracy Format.binary64 s m (-1074) .exact = .finite s m (-1074) hm := by
  have hlog : m.log2 < 52 := (Nat.log2_lt hm.ne').mpr h
  have hshift : shiftToTargetExponent Format.binary64 m (-1074) .exact =
      (ExtendedMantissa.ofMantissaAndAccuracy m .exact, -1074) := by
    have hamount : (max ((m.log2 : Int) + -1074 - 52) (-1074) - -1074).toNat = 0 := by omega
    rw [shiftToTargetExponent, targetExponent_eq, shiftToExponent]
    simp only [hamount]
    rfl
  have hrounded : (ExtendedMantissa.ofMantissaAndAccuracy m .exact).roundedMantissa = m := rfl
  have hmantissa : (ExtendedMantissa.ofMantissaAndAccuracy m .exact).mantissa = m := rfl
  rw [roundWithAccuracy]
  simp only [hshift, hrounded, hmantissa, dif_neg hm.ne']

theorem attains_pack_round {m : Nat} {e : Int} (hm : 0 < m) (he : -1074 ≤ e) :
    Attains (nearest (m * 2 ^ e))
      (Float.Model.pack (UnpackedFloat.round Format.binary64 .positive m e)).unpack := by
  rw [UnpackedFloat.round, targetExponent_eq, decreaseExponent]
  obtain ⟨j, hj⟩ : ∃ j : Nat, j = (e - max ((m.log2 : Int) + e - 52) (-1074)).toNat := ⟨_, rfl⟩
  have hlog := log2_mul_pow hm j
  have hpos : 0 < m * 2 ^ j := by positivity
  have hvalue : ((m * 2 ^ j : Nat) : Rat) * 2 ^ (e - j) = m * 2 ^ e := by
    push_cast
    rw [mul_assoc, ← zpow_natCast, ← zpow_add₀ (by norm_num), add_sub_cancel]
  rw [← hj]
  dsimp only
  rw [Nat.shiftLeft_eq]
  rcases le_or_gt (-1074) ((m.log2 : Int) + e - 52) with hnormal | hsubnormal
  · have hround := roundsTo_pack (e := e - j) hpos (by omega) (by omega) (extends_exact _)
    rw [hvalue] at hround
    exact hround.attains
  · -- A subnormal number is a whole multiple of the least one, so nothing is rounded away.
    have hexponent : e - j = -1074 := by omega
    have hlt : m * 2 ^ j < 2 ^ 52 := (Nat.log2_lt hpos.ne').mp (by omega)
    have hvalue' : ((m * 2 ^ j : Nat) : Rat) * 2 ^ (-1074 : Int) = m * 2 ^ e := by
      rw [← hexponent, hvalue]
    rw [hexponent, roundWithAccuracy_subnormal .positive hpos hlt,
      unpack_pack_subnormal .positive hpos hlt, ← hvalue']
    exact attains_fitting hpos (hlt.trans (by norm_num)) (by norm_num)

theorem roundWithAccuracy_neg (s : Sign) (m : Nat) (e : Int) (a : Accuracy) :
    roundWithAccuracy Format.binary64 (-s) m e a =
      (roundWithAccuracy Format.binary64 s m e a).neg := by
  rw [roundWithAccuracy, roundWithAccuracy]
  dsimp only
  split_ifs <;> rfl

/-- What a whole multiple of a power of two is rounded to, zero and below included. -/
theorem attains_pack_normalize (m : Int) {e : Int} (he : -1074 ≤ e) : Attains (rounded (m * 2 ^ e))
    (Float.Model.pack (UnpackedFloat.normalize Format.binary64 m e .positive)).unpack := by
  have hpow : (0 : Rat) < 2 ^ e := by positivity
  have hpositive {n : Nat} (hn : 0 < n) : Attains (rounded (n * 2 ^ e))
      (Float.Model.pack (UnpackedFloat.round Format.binary64 .positive n e)).unpack := by
    rw [rounded, if_neg (magnitude_pos hn).not_gt]
    exact attains_pack_round hn he
  rw [UnpackedFloat.normalize]
  rcases lt_trichotomy m 0 with hm | rfl | hm
  · obtain ⟨n, rfl⟩ : ∃ n : Nat, m = -n := ⟨(-m).toNat, by omega⟩
    rw [compare_lt_iff_lt.mpr hm, neg_neg, Int.toNat_natCast]
    have hneg : UnpackedFloat.round Format.binary64 .negative n e =
        (UnpackedFloat.round Format.binary64 .positive n e).neg :=
      roundWithAccuracy_neg .positive _ _ _
    have hcast : ((-n : Int) : Rat) * 2 ^ e = -(n * 2 ^ e) := by
      push_cast
      ring
    dsimp only
    rw [hneg, unpack_pack_neg, hcast, rounded_neg]
    exact (hpositive (by omega)).neg
  · rw [compare_eq_iff_eq.mpr rfl]
    dsimp only
    rw [unpack_zero, Int.cast_zero, zero_mul, rounded, if_neg (lt_irrefl 0), nearest_zero]
    exact .finite rfl rfl (by rw [abs_zero]; exact limit_pos)
  · obtain ⟨n, rfl⟩ : ∃ n : Nat, m = n := ⟨m.toNat, by omega⟩
    rw [compare_gt_iff_gt.mpr hm, Int.toNat_natCast, Int.cast_natCast]
    exact hpositive (by omega)

theorem attains_zero (s : Sign) : Attains (rounded 0) (.zero s) := by
  rw [rounded, if_neg (lt_irrefl 0), nearest_zero]
  exact .finite rfl rfl (by rw [abs_zero]; exact limit_pos)

/-- A finite quantity attains its own value. -/
theorem attains_unpacked {x : Float} (h : (unpacked x).isFinite = true) :
    Attains (rounded (magnitude (unpacked x))) (unpacked x) := by
  have hbounded : Bounded (unpacked x) := bounded_unpack h
  cases hu : unpacked x with
  | notANumber => simp [hu, UnpackedFloat.isFinite] at h
  | infinity s => simp [hu, UnpackedFloat.isFinite] at h
  | zero s => exact attains_zero s
  | finite s m e hm =>
      rw [hu] at hbounded
      have hpositive : Attains (rounded (m * 2 ^ e)) (.finite .positive m e hm) := by
        rw [rounded, if_neg (magnitude_pos hm).not_gt]
        exact attains_fitting hm (canonical_unpacked hu).lt hbounded
      cases s with
      | positive =>
          rw [magnitude_positive]
          exact hpositive
      | negative =>
          rw [magnitude_negative, rounded_neg]
          exact hpositive.neg

/-! ### Subtraction -/

theorem unpacked_sub (x y : Float) : unpacked (x - y) = (Float.Model.pack
    (UnpackedFloat.sub Format.binary64 (unpacked x) (unpacked y))).unpack := rfl

theorem zero_sub_finite (s t : Sign) {n : Nat} {f : Int} (hn : 0 < n) :
    UnpackedFloat.sub Format.binary64 (.zero s) (.finite t n f hn) =
      (UnpackedFloat.finite t n f hn).neg := rfl

theorem finite_sub_zero (s t : Sign) {m : Nat} {e : Int} (hm : 0 < m) :
    UnpackedFloat.sub Format.binary64 (.finite s m e hm) (.zero t) = .finite s m e hm := rfl

theorem zero_sub_zero (s t : Sign) : ∃ r,
    UnpackedFloat.sub Format.binary64 (.zero s) (.zero t) = .zero r := by
  cases s <;> cases t <;> exact ⟨_, rfl⟩

/-- A smaller exponent with a longer mantissa has the same value. -/
theorem apply_decreaseExponent (s : Sign) (m : Nat) {e f : Int} (h : f ≤ e) :
    (s.apply (decreaseExponent m e f).1 : Rat) * 2 ^ f = s.apply m * 2 ^ e := by
  have hvalue : ((decreaseExponent m e f).1 : Rat) * 2 ^ f = m * 2 ^ e := by
    rw [decreaseExponent]
    dsimp only
    rw [Nat.shiftLeft_eq]
    push_cast
    rw [mul_assoc, ← zpow_natCast, ← zpow_add₀ (by norm_num)]
    congr 2
    omega
  cases s with
  | positive => exact hvalue
  | negative =>
      simp only [Sign.apply, Int.cast_neg, Int.cast_natCast, neg_mul, hvalue]

theorem finite_sub_finite (s t : Sign) {m n : Nat} {e f : Int} (hm : 0 < m) (hn : 0 < n) :
    ∃ k : Int, UnpackedFloat.sub Format.binary64 (.finite s m e hm) (.finite t n f hn) =
        UnpackedFloat.normalize Format.binary64 k (min e f) .positive ∧
      k * (2 : Rat) ^ min e f =
        magnitude (.finite s m e hm) - magnitude (.finite t n f hn) := by
  refine ⟨s.apply (decreaseExponent m e (min e f)).1 - t.apply (decreaseExponent n f (min e f)).1,
    rfl, ?_⟩
  rw [magnitude, magnitude, Int.cast_sub, sub_mul, apply_decreaseExponent s m (min_le_left e f),
    apply_decreaseExponent t n (min_le_right e f)]

/-- The difference of two finite quantities is the rounded difference of their values. -/
theorem attains_sub {x y : Float} (hx : (unpacked x).isFinite = true)
    (hy : (unpacked y).isFinite = true) :
    Attains (rounded (magnitude (unpacked x) - magnitude (unpacked y))) (unpacked (x - y)) := by
  have hattains := attains_unpacked hx
  have hattains' := (attains_unpacked hy).neg
  rw [← rounded_neg] at hattains'
  have hux : (Float.Model.pack (unpacked x)).unpack = unpacked x :=
    congrArg unpacked (ofModel_pack_unpacked x)
  have huy : (Float.Model.pack (unpacked y).neg).unpack = (unpacked y).neg := by
    rw [unpack_pack_neg]
    exact congrArg (fun z => (unpacked z).neg) (ofModel_pack_unpacked y)
  have hzero (s : Sign) : magnitude (.zero s) = 0 := rfl
  rw [unpacked_sub]
  cases hu : unpacked x with
  | notANumber => simp [hu, UnpackedFloat.isFinite] at hx
  | infinity s => simp [hu, UnpackedFloat.isFinite] at hx
  | zero s =>
      cases hv : unpacked y with
      | notANumber => simp [hv, UnpackedFloat.isFinite] at hy
      | infinity t => simp [hv, UnpackedFloat.isFinite] at hy
      | zero t =>
          obtain ⟨r, hr⟩ := zero_sub_zero s t
          rw [hr, unpack_zero, hzero, hzero, sub_zero]
          exact attains_zero r
      | finite t n f hn =>
          rw [hv] at hattains' huy
          rw [zero_sub_finite, huy, hzero, zero_sub]
          exact hattains'
  | finite s m e hm =>
      cases hv : unpacked y with
      | notANumber => simp [hv, UnpackedFloat.isFinite] at hy
      | infinity t => simp [hv, UnpackedFloat.isFinite] at hy
      | zero t =>
          rw [hu] at hattains hux
          rw [finite_sub_zero, hux, hzero, sub_zero]
          exact hattains
      | finite t n f hn =>
          obtain ⟨k, hk, hvalue⟩ := finite_sub_finite s t hm hn
          rw [hk, ← hvalue]
          exact attains_pack_normalize k
            (le_min (canonical_unpacked hu).least (canonical_unpacked hv).least)

theorem sub_notANumber (u : UnpackedFloat) :
    UnpackedFloat.sub Format.binary64 u .notANumber = .notANumber := by
  cases u <;> rfl

theorem unpack_pack_infinity (s : Sign) :
    (Float.Model.pack (.infinity s)).unpack = .infinity s := by
  cases s <;> rfl

theorem unpacked_infinity_sub {x z : Float} {s : Sign} (hx : unpacked x = .infinity s)
    (hz : (unpacked z).isFinite = true) : unpacked (x - z) = .infinity s := by
  have hsub : UnpackedFloat.sub Format.binary64 (.infinity s) (unpacked z) = .infinity s := by
    cases hu : unpacked z with
    | notANumber => simp [hu, UnpackedFloat.isFinite] at hz
    | infinity t => simp [hu, UnpackedFloat.isFinite] at hz
    | _ => rfl
  rw [unpacked_sub, hx, hsub, unpack_pack_infinity]

theorem unpacked_sub_infinity {z : Float} {t : Sign} (x : Float) (hz : unpacked z = .infinity t) :
    unpacked (x - z) = .notANumber ∨ unpacked (x - z) = .infinity (-t) := by
  rw [unpacked_sub, hz]
  cases unpacked x with
  | notANumber => exact Or.inl unpacked_notANumber
  | infinity s =>
      cases s <;> cases t
      · exact Or.inl unpacked_notANumber
      · exact Or.inr (unpack_pack_infinity .negative)
      · exact Or.inr (unpack_pack_infinity .positive)
      · exact Or.inl unpacked_notANumber
  | _ => exact Or.inr (unpack_pack_infinity (-t))

theorem infinity_or_isFinite {u : UnpackedFloat} (h : u ≠ .notANumber) :
    (∃ s, u = .infinity s) ∨ u.isFinite = true := by
  cases u with
  | notANumber => exact absurd rfl h
  | infinity s => exact Or.inl ⟨s, rfl⟩
  | _ => exact Or.inr rfl

/-- What is taken from a quantity is finite if the difference is. -/
theorem isFinite_of_isFinite_sub {x z : Float} (h : Quantity.isFinite (x - z) = true) :
    Quantity.isFinite z = true := by
  rw [isFinite_iff] at h ⊢
  refine (infinity_or_isFinite fun hz => ?_).resolve_left fun ⟨t, hz⟩ => ?_
  · rw [unpacked_sub, hz, sub_notANumber] at h
    exact absurd (unpacked_notANumber ▸ h) (by decide)
  · rcases unpacked_sub_infinity x hz with hdifference | hdifference <;>
      rw [hdifference] at h <;> cases h

theorem not_sub_lt_sub_of_isFinite {x y z : Float} (hx : unpacked x ≠ .notANumber)
    (hy : unpacked y ≠ .notANumber) (hz : (unpacked z).isFinite = true) (h : ¬y < x) :
    ¬y - z < x - z := by
  have hrank : ¬rank (unpacked y) < rank (unpacked x) := fun hlt => h (lt_iff.mpr ⟨hy, hx, hlt⟩)
  rcases infinity_or_isFinite hx with ⟨s, hinfinite⟩ | hfx
  · have hleft := unpacked_infinity_sub hinfinite hz
    cases s with
    | negative =>
        intro hlt
        rw [lt_iff, hleft] at hlt
        exact absurd hlt.2.2 (rank_le_infinity _).1.not_gt
    | positive =>
        rw [hinfinite] at hrank
        rcases infinity_or_isFinite hy with ⟨t, hinfinite'⟩ | hfy
        · cases t with
          | negative => exact absurd (by rw [hinfinite']; decide) hrank
          | positive =>
              rw [lt_iff, hleft, unpacked_infinity_sub hinfinite' hz]
              exact fun hlt => lt_irrefl _ hlt.2.2
        · exact absurd (rank_lt_infinity hfy).2 hrank
  · rcases infinity_or_isFinite hy with ⟨t, hinfinite⟩ | hfy
    · cases t with
      | negative =>
          rw [hinfinite] at hrank
          exact absurd (rank_lt_infinity hfx).1 hrank
      | positive =>
          rw [lt_iff, unpacked_infinity_sub hinfinite hz]
          exact fun hlt => absurd hlt.2.2 (rank_le_infinity _).2.not_gt
    · have hvalue : magnitude (unpacked x) ≤ magnitude (unpacked y) := by
        by_contra hlt
        exact h ((lt_iff_of_value? (value?_eq_some.mpr ⟨hfy, rfl⟩)
          (value?_eq_some.mpr ⟨hfx, rfl⟩)).mpr (not_le.mp hlt))
      exact (attains_sub hfx hz).not_lt (attains_sub hfy hz)
        (rounded_mono (sub_le_sub_right hvalue _))

/-- Rounded or not, differences with one quantity keep the order. -/
theorem not_sub_lt_sub {x y z : Float} (h : ¬y < x) : ¬y - z < x - z := by
  intro hlt
  obtain ⟨hnumber, hnumber', hrank⟩ := lt_iff.mp hlt
  have hx : unpacked x ≠ .notANumber := by
    intro hx
    rw [unpacked_sub, hx] at hnumber'
    exact hnumber' unpacked_notANumber
  have hy : unpacked y ≠ .notANumber := by
    intro hy
    rw [unpacked_sub, hy] at hnumber
    exact hnumber unpacked_notANumber
  have hz : unpacked z ≠ .notANumber := by
    intro hz
    rw [unpacked_sub, hz, sub_notANumber] at hnumber
    exact hnumber unpacked_notANumber
  rcases infinity_or_isFinite hz with ⟨t, hinfinite⟩ | hfz
  · -- What an infinity is taken from no longer matters.
    have hleft := (unpacked_sub_infinity x hinfinite).resolve_left hnumber'
    have hright := (unpacked_sub_infinity y hinfinite).resolve_left hnumber
    rw [hleft, hright] at hrank
    exact lt_irrefl _ hrank
  · exact not_sub_lt_sub_of_isFinite hx hy hfz h hlt

instance : Quantity.Ordered Float where
  le_iff {a b} := by
    rw [le_iff, isNumber_iff, isNumber_iff, lt_iff]
    exact ⟨fun ⟨ha, hb, h⟩ => ⟨ha, hb, fun hlt => h hlt.2.2⟩,
      fun ⟨ha, hb, h⟩ => ⟨ha, hb, fun hlt => h ⟨hb, ha, hlt⟩⟩⟩
  not_sub_lt_sub := not_sub_lt_sub

end Binary64

instance Exact.instOrdered : Quantity.Ordered Rat where
  le_iff {a b} :=
    ⟨fun h => ⟨beq_self_eq_true a, beq_self_eq_true b, not_lt.mpr h⟩, fun h => not_lt.mp h.2.2⟩
  not_sub_lt_sub {_ _ c} h := not_lt.mpr (sub_le_sub_right (not_lt.mp h) c)

end MusicPart
