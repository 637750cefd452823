import MusicPart.Proofs.RoundingErrors
import MusicPart.Proofs.Signs

/-!
# Products and quotients

A product or a quotient of binary64 is the number nearest to the exact one, and a multiple of the
least one where the exact one is smaller than all that have the bits of a mantissa. A quotient is
computed from a whole quotient that is short of the exact one by less than a unit, and the remainder
tells by how much.
-/

namespace MusicPart.Binary64

open Float.Model
open Float.Model.UnpackedFloat

/-! ### Results near to the exact ones -/

/-- The nearest number, or a multiple of the least one where the exponents of the format end. -/
inductive Approximates (x : Rat) (u : UnpackedFloat) : Prop
  | attains (h : Attains (rounded x) u)
  | tiny (hu : u.isFinite = true) (hx : x ≠ 0) (hlt : |x| < 2 ^ (-1022 : Int))
      (herror : |magnitude u - x| ≤ 2 ^ (-1075 : Int))

namespace Approximates

variable {x : Rat} {u : UnpackedFloat}

theorem neg (h : Approximates x u) : Approximates (-x) u.neg := by
  cases h with
  | attains h => exact .attains (rounded_neg x ▸ h.neg)
  | tiny hu hx hlt herror =>
      refine .tiny ?_ (neg_ne_zero.mpr hx) (by rwa [abs_neg]) ?_
      · cases u <;> exact hu
      · rwa [magnitude_neg, neg_sub_neg, abs_sub_comm]

theorem attains_of_le (h : Approximates x u) (hx : 2 ^ (-1022 : Int) ≤ |x|) :
    Attains (rounded x) u := by
  cases h with
  | attains h => exact h
  | tiny _ _ hlt _ => exact absurd hlt hx.not_gt

end Approximates

theorem unpack_pack_least (s : Sign) {n : Nat} (hn : 0 < n) (h : n ≤ 2 ^ 52) :
    (Float.Model.pack (.finite s n (-1074) hn)).unpack = .finite s n (-1074) hn := by
  rcases h.lt_or_eq with hlt | rfl
  · exact unpack_pack_subnormal s hn hlt
  · exact unpack_pack_normal s hn (by decide +kernel) le_rfl (by decide)

/-- A number below all that take the bits of a mantissa is rounded to a multiple of the least
one. -/
theorem pack_roundWithAccuracy_least {m : Nat} {e : Int} {a : Accuracy} {x : Rat}
    (hx : Extends (.ofMantissaAndAccuracy m a) x) (he : e ≤ -1074) (hlog : m.log2 + e < -1022) :
    ∃ u, (Float.Model.pack (roundWithAccuracy Format.binary64 .positive m e a)).unpack = u ∧
      u.isFinite = true ∧
      magnitude u = Quantity.roundHalfEven (x * 2 ^ e / 2 ^ (-1074 : Int)) * 2 ^ (-1074 : Int) := by
  obtain ⟨k, hk⟩ : ∃ k : Nat, e = -1074 - k := ⟨(-1074 - e).toNat, by omega⟩
  have hfirst : shiftToTargetExponent Format.binary64 m e a =
      (ExtendedMantissa.ofMantissaAndAccuracy m a >>> k, -1074) := by
    have hshift : (max ((m.log2 : Int) + e - 52) (-1074) - e).toNat = k := by omega
    rw [shiftToTargetExponent, targetExponent_eq, shiftToExponent, hshift]
    exact congrArg (Prod.mk _) (by omega)
  obtain ⟨r, hr⟩ : ∃ r, r = (ExtendedMantissa.ofMantissaAndAccuracy m a >>> k).roundedMantissa :=
    ⟨_, rfl⟩
  have hvalue : (r : Int) = Quantity.roundHalfEven (x * 2 ^ e / 2 ^ (-1074 : Int)) := by
    have hquotient : x * 2 ^ e / 2 ^ (-1074 : Int) = x / 2 ^ k := by
      rw [hk, zpow_sub₀ (by norm_num), zpow_natCast]
      field_simp
    rw [hr, hquotient]
    exact (hx.shiftRight k).roundedMantissa_eq
  have hmantissa : m < 2 ^ (52 + k) := by
    refine Nat.lt_log2_self.trans_le (Nat.pow_le_pow_right (by decide) ?_)
    omega
  have hle : r ≤ 2 ^ 52 := by
    have hshifted : (ExtendedMantissa.ofMantissaAndAccuracy m a >>> k).mantissa < 2 ^ 52 := by
      rw [shiftRight_mantissa, mantissa_ofMantissaAndAccuracy,
        Nat.div_lt_iff_lt_mul (by positivity), ← pow_add]
      exact hmantissa
    rw [hr]
    exact (roundedMantissa_le _).trans hshifted
  have hsecond : shiftToTargetExponent Format.binary64 r (-1074) .exact =
      (ExtendedMantissa.ofMantissaAndAccuracy r .exact, -1074) := by
    have hlog : r.log2 ≤ 52 := log2_le (hle.trans_lt (by norm_num))
    have hshift : (max ((r.log2 : Int) + -1074 - 52) (-1074) - -1074).toNat = 0 := by omega
    rw [shiftToTargetExponent, targetExponent_eq, shiftToExponent, hshift]
    rfl
  have hround : roundWithAccuracy Format.binary64 .positive m e a =
      if h : r = 0 then .zero .positive
      else .finite .positive r (-1074) (Nat.pos_of_ne_zero h) := by
    rw [roundWithAccuracy]
    simp only [hfirst, ← hr, hsecond]
    rfl
  refine ⟨_, rfl, ?_⟩
  rw [hround, ← hvalue]
  by_cases hzero : r = 0
  · rw [dif_pos hzero, unpack_zero, hzero]
    exact ⟨rfl, by simp [magnitude]⟩
  · rw [dif_neg hzero, unpack_pack_least .positive _ hle, magnitude_positive]
    exact ⟨rfl, rfl⟩

/-- Rounding finds the nearest number, wherever the mantissa has bits to spare. -/
theorem approximates_pack {m : Nat} {e : Int} {a : Accuracy} {x : Rat}
    (hx : Extends (.ofMantissaAndAccuracy m a) x) (hpos : 0 < x) (h : 52 ≤ m.log2 ∨ e ≤ -1074) :
    Approximates (x * 2 ^ e) (Float.Model.pack
      (roundWithAccuracy Format.binary64 .positive m e a)).unpack := by
  have hpow : (0 : Rat) < x * 2 ^ e := mul_pos hpos (zpow_pos (by norm_num) e)
  rcases le_or_gt (-1022) (m.log2 + e) with hnormal | htiny
  · have hlog : 52 ≤ m.log2 := by omega
    have hm : 0 < m := Nat.pos_of_ne_zero fun hzero => by simp [hzero] at hlog
    have hround := roundsTo_pack (e := e) hm hlog (by omega) hx
    refine .attains ?_
    rw [rounded_of_nonneg hpow.le]
    exact hround.attains
  · obtain ⟨u, hu, hfinite, hvalue⟩ := pack_roundWithAccuracy_least hx (by omega) htiny
    have hbound : x < 2 ^ (m.log2 + 1) := by
      obtain ⟨-, hhigh⟩ := mantissa_ofMantissaAndAccuracy m a ▸ hx.bounds
      have hnext : (m : Rat) + 1 ≤ 2 ^ (m.log2 + 1) := by exact_mod_cast Nat.lt_log2_self (n := m)
      exact hhigh.trans_le hnext
    rw [hu]
    refine .tiny hfinite hpow.ne' ?_ ?_
    · rw [abs_of_pos hpow]
      calc x * 2 ^ e < 2 ^ (m.log2 + 1) * 2 ^ e := by gcongr
        _ = 2 ^ ((m.log2 : Int) + 1 + e) := by
            rw [zpow_add₀ (by norm_num)]
            norm_cast
        _ ≤ 2 ^ (-1022 : Int) := zpow_le_zpow_right₀ (by norm_num) (by omega)
    · have hleast : (0 : Rat) < 2 ^ (-1074 : Int) := by positivity
      have hhalf : (2 : Rat) ^ (-1075 : Int) = 1 / 2 * 2 ^ (-1074 : Int) := by
        rw [show (-1075 : Int) = -1 + -1074 by decide, zpow_add₀ (by norm_num)]
        norm_num
      have herror := abs_roundHalfEven_sub_le (x * 2 ^ e / 2 ^ (-1074 : Int))
      rw [hvalue, hhalf]
      calc |(Quantity.roundHalfEven (x * 2 ^ e / 2 ^ (-1074 : Int)) : Rat) * 2 ^ (-1074 : Int) -
              x * 2 ^ e|
          = |(Quantity.roundHalfEven (x * 2 ^ e / 2 ^ (-1074 : Int)) : Rat) -
              x * 2 ^ e / 2 ^ (-1074 : Int)| * 2 ^ (-1074 : Int) := by
            rw [← abs_of_pos hleast, ← abs_mul, abs_of_pos hleast, sub_mul,
              div_mul_cancel₀ _ hleast.ne']
        _ ≤ 1 / 2 * 2 ^ (-1074 : Int) := by gcongr

theorem approximates_zero (s : Sign) : Approximates 0 (.zero s) := .attains (attains_zero s)

def signedBy : Sign → Rat → Rat
  | .positive, x => x
  | .negative, x => -x

theorem signedBy_mul (s t : Sign) (x y : Rat) :
    signedBy (s * t) (x * y) = signedBy s x * signedBy t y := by
  cases s <;> cases t <;> simp [signedBy]

theorem signedBy_div (s t : Sign) (x y : Rat) :
    signedBy (s / t) (x / y) = signedBy s x / signedBy t y := by
  cases s with
  | positive =>
      cases t with
      | positive => rfl
      | negative => exact (div_neg x).symm
  | negative =>
      cases t with
      | positive => exact (neg_div y x).symm
      | negative => exact (neg_div_neg_eq x y).symm

theorem magnitude_finite (s : Sign) (m : Nat) (e : Int) (hm : 0 < m) :
    magnitude (.finite s m e hm) = signedBy s (m * 2 ^ e) := by
  cases s with
  | positive => exact magnitude_positive m e hm
  | negative => exact magnitude_negative m e hm

theorem approximates_pack_signed (s : Sign) {m : Nat} {e : Int} {a : Accuracy} {x : Rat}
    (h : Approximates x (Float.Model.pack
      (roundWithAccuracy Format.binary64 .positive m e a)).unpack) :
    Approximates (signedBy s x) (Float.Model.pack
      (roundWithAccuracy Format.binary64 s m e a)).unpack := by
  cases s with
  | positive => exact h
  | negative =>
      have hneg : roundWithAccuracy Format.binary64 .negative m e a =
          (roundWithAccuracy Format.binary64 .positive m e a).neg :=
        roundWithAccuracy_neg .positive m e a
      rw [hneg, unpack_pack_neg]
      exact h.neg

/-! ### Products and quotients -/

theorem approximates_mul_finite (s t : Sign) {m n : Nat} {e f : Int} (hm : 0 < m) (hn : 0 < n)
    (h : 52 ≤ (m * n).log2 ∨ e + f ≤ -1074) :
    Approximates (magnitude (.finite s m e hm) * magnitude (.finite t n f hn))
      (Float.Model.pack (UnpackedFloat.mul Format.binary64 (.finite s m e hm)
        (.finite t n f hn))).unpack := by
  have hpositive :=
    approximates_pack (extends_exact (m * n)) (by exact_mod_cast Nat.mul_pos hm hn) h
  have hvalue : ((m * n : Nat) : Rat) * 2 ^ (e + f) = (m * 2 ^ e) * (n * 2 ^ f) := by
    rw [zpow_add₀ (by norm_num)]
    push_cast
    ring
  have hsigned := approximates_pack_signed (s * t) hpositive
  rw [hvalue, signedBy_mul, ← magnitude_finite s m e hm, ← magnitude_finite t n f hn] at hsigned
  exact hsigned

variable {x y : Float} {a b : Rat}

theorem approximates_mul (hx : Quantity.value? x = some a) (hy : Quantity.value? y = some b) :
    Approximates (a * b) (unpacked (x * y)) := by
  obtain ⟨hfx, rfl⟩ := value?_eq_some.mp hx
  obtain ⟨hfy, rfl⟩ := value?_eq_some.mp hy
  have hmul : unpacked (x * y) = (Float.Model.pack
    (UnpackedFloat.mul Format.binary64 (unpacked x) (unpacked y))).unpack := rfl
  have hzero (s : Sign) : magnitude (.zero s) = 0 := rfl
  rw [hmul]
  cases hu : unpacked x with
  | notANumber => simp [hu, UnpackedFloat.isFinite] at hfx
  | infinity s => simp [hu, UnpackedFloat.isFinite] at hfx
  | zero s =>
      rw [hzero, zero_mul]
      cases hv : unpacked y with
      | notANumber => simp [hv, UnpackedFloat.isFinite] at hfy
      | infinity t => simp [hv, UnpackedFloat.isFinite] at hfy
      | zero t => exact unpack_zero.symm ▸ approximates_zero (s * t)
      | finite t n f hn => exact unpack_zero.symm ▸ approximates_zero (s * t)
  | finite s m e hm =>
      cases hv : unpacked y with
      | notANumber => simp [hv, UnpackedFloat.isFinite] at hfy
      | infinity t => simp [hv, UnpackedFloat.isFinite] at hfy
      | zero t =>
          rw [hzero, mul_zero]
          exact unpack_zero.symm ▸ approximates_zero (s * t)
      | finite t n f hn =>
          have hcx := canonical_unpacked hu
          have hcy := canonical_unpacked hv
          refine approximates_mul_finite s t hm hn ?_
          -- Of two numbers with spare bits both have the least exponent.
          by_cases he : -1074 < e
          · left
            exact (Nat.le_log2 (by positivity)).mpr
              ((hcx.full he).trans (Nat.le_mul_of_pos_right m hn))
          · by_cases hf : -1074 < f
            · left
              exact (Nat.le_log2 (by positivity)).mpr
                ((hcy.full hf).trans (Nat.le_mul_of_pos_left n hm))
            · right
              omega

/-- The remainder tells what a whole quotient is short of the exact one. -/
theorem extends_quotient (p : Nat) {n : Nat} (hn : 0 < n) :
    Extends (.ofMantissaAndAccuracy (p / n) (accuracyOfFraction (p % n) n)) ((p : Rat) / n) := by
  have hpos : (0 : Rat) < n := Nat.cast_pos.mpr hn
  have hwhole : ((n * (p / n) + p % n : Nat) : Rat) = p := congrArg _ (Nat.div_add_mod p n)
  have hexact : (p : Rat) / n = (p / n : Nat) + ((p % n : Nat) : Rat) / n := by
    rw [← hwhole]
    push_cast
    field_simp
  rw [hexact]
  generalize (p / n : Nat) = q
  have hlt : ((p % n : Nat) : Rat) / n < 1 :=
    (div_lt_one hpos).mpr (Nat.cast_lt.mpr (Nat.mod_lt p hn))
  generalize p % n = r at hlt
  rw [accuracyOfFraction]
  split
  · rename_i hzero
    rw [hzero, Nat.cast_zero, zero_div, add_zero]
    exact extends_exact q
  · rename_i hnonzero
    have hrest : 0 < (r : Rat) / n := div_pos (Nat.cast_pos.mpr (Nat.pos_of_ne_zero hnonzero)) hpos
    rcases lt_trichotomy (2 * r) n with hless | heq | hmore
    · rw [compare_lt_iff_lt.mpr hless]
      have hhalf : (r : Rat) / n < 1 / 2 := by
        rw [div_lt_div_iff₀ hpos (by norm_num)]
        exact_mod_cast (show r * 2 < 1 * n by omega)
      exact ⟨lt_add_of_pos_right _ hrest, add_lt_add_right hhalf _⟩
    · rw [compare_eq_iff_eq.mpr heq]
      have hhalf : (r : Rat) / n = 1 / 2 := by
        rw [div_eq_div_iff hpos.ne' (by norm_num)]
        exact_mod_cast (show r * 2 = 1 * n by omega)
      exact congrArg _ hhalf
    · rw [compare_gt_iff_gt.mpr hmore]
      have hhalf : 1 / 2 < (r : Rat) / n := by
        rw [div_lt_div_iff₀ (by norm_num) hpos]
        exact_mod_cast (show 1 * n < r * 2 by omega)
      exact ⟨add_lt_add_right hhalf _, add_lt_add_right hlt _⟩

theorem approximates_div_finite (s t : Sign) {m n : Nat} {e f : Int} (hm : 0 < m) (hn : 0 < n) :
    Approximates (magnitude (.finite s m e hm) / magnitude (.finite t n f hn))
      (Float.Model.pack (UnpackedFloat.div Format.binary64 (.finite s m e hm)
        (.finite t n f hn))).unpack := by
  obtain ⟨c, hc⟩ : ∃ c : Int, c = min (e - f) (max (m.log2 + e - (n.log2 + f) - 53) (-1074)) :=
    ⟨_, rfl⟩
  obtain ⟨k, hk⟩ : ∃ k : Nat, k = (e - f - c).toNat := ⟨_, rfl⟩
  have hcore : divCore Format.binary64 m e n f =
      (m * 2 ^ k / n, c, accuracyOfFraction (m * 2 ^ k % n) n) := by
    have htarget : min (e - f)
        (Format.binary64.targetExponent (totalExponent m e - totalExponent n f)) = c := by
      rw [hc]
      simp only [totalExponent, Format.targetExponent, Format.mantissaBits, Format.minExponent]
      norm_num
      omega
    rw [divCore]
    simp only [htarget, ← hk, Nat.shiftLeft_eq]
  have hlong : 52 ≤ (m * 2 ^ k / n).log2 ∨ c ≤ -1074 := by
    rcases le_or_gt c (-1074) with hle | hgt
    · exact Or.inr hle
    · left
      have hbits : n.log2 + 1 + 52 ≤ m.log2 + k := by omega
      have hquotient : 2 ^ 52 ≤ m * 2 ^ k / n := by
        rw [Nat.le_div_iff_mul_le hn]
        calc 2 ^ 52 * n ≤ 2 ^ 52 * 2 ^ (n.log2 + 1) :=
              Nat.mul_le_mul_left _ Nat.lt_log2_self.le
          _ ≤ 2 ^ (m.log2 + k) := by
              rw [← pow_add]
              exact Nat.pow_le_pow_right (by decide) (by omega)
          _ ≤ m * 2 ^ k := by
              rw [pow_add]
              exact Nat.mul_le_mul_right _ (Nat.log2_self_le hm.ne')
      exact (Nat.le_log2 (lt_of_lt_of_le (by norm_num) hquotient).ne').mpr hquotient
  have hpos : (0 : Rat) < ((m * 2 ^ k : Nat) : Rat) / n :=
    div_pos (by exact_mod_cast Nat.mul_pos hm (Nat.two_pow_pos k)) (Nat.cast_pos.mpr hn)
  have hsigned := approximates_pack_signed (s / t)
    (approximates_pack (extends_quotient (m * 2 ^ k) hn) hpos hlong)
  have hvalue : ((m * 2 ^ k : Nat) : Rat) / n * 2 ^ c = (m * 2 ^ e) / (n * 2 ^ f) := by
    rw [show c = e - f - k by omega, zpow_sub₀ (by norm_num), zpow_sub₀ (by norm_num),
      zpow_natCast]
    push_cast
    field_simp
  rw [hvalue, signedBy_div, ← magnitude_finite s m e hm, ← magnitude_finite t n f hn] at hsigned
  rw [UnpackedFloat.div, hcore]
  exact hsigned

theorem approximates_div (hx : Quantity.value? x = some a) (hy : Quantity.value? y = some b)
    (hb : b ≠ 0) : Approximates (a / b) (unpacked (x / y)) := by
  obtain ⟨hfx, rfl⟩ := value?_eq_some.mp hx
  obtain ⟨hfy, rfl⟩ := value?_eq_some.mp hy
  have hdiv : unpacked (x / y) = (Float.Model.pack
    (UnpackedFloat.div Format.binary64 (unpacked x) (unpacked y))).unpack := rfl
  have hzero (s : Sign) : magnitude (.zero s) = 0 := rfl
  rw [hdiv]
  cases hv : unpacked y with
  | notANumber => simp [hv, UnpackedFloat.isFinite] at hfy
  | infinity t => simp [hv, UnpackedFloat.isFinite] at hfy
  | zero t => exact absurd (hv ▸ hzero t) hb
  | finite t n f hn =>
      cases hu : unpacked x with
      | notANumber => simp [hu, UnpackedFloat.isFinite] at hfx
      | infinity s => simp [hu, UnpackedFloat.isFinite] at hfx
      | zero s =>
          rw [hzero, zero_div]
          exact unpack_zero.symm ▸ approximates_zero (s / t)
      | finite s m e hm => exact approximates_div_finite s t hm hn

theorem unpacked_infinity_div {s : Sign} (hx : unpacked x = .infinity s)
    (hy : Quantity.value? y = some b) (hb : 0 < b) : unpacked (x / y) = .infinity s := by
  obtain ⟨hfinite, rfl⟩ := value?_eq_some.mp hy
  have hdiv : unpacked (x / y) = (Float.Model.pack
    (UnpackedFloat.div Format.binary64 (unpacked x) (unpacked y))).unpack := rfl
  have hzero (t : Sign) : magnitude (.zero t) = 0 := rfl
  have hinfinite : (Float.Model.pack (.infinity s)).unpack = .infinity s := by cases s <;> rfl
  rw [hdiv, hx]
  cases hv : unpacked y with
  | notANumber => simp [hv, UnpackedFloat.isFinite] at hfinite
  | infinity t => simp [hv, UnpackedFloat.isFinite] at hfinite
  | zero t => exact absurd (hv ▸ hzero t) hb.ne'
  | finite t n f hn =>
      cases t with
      | positive => cases s <;> exact hinfinite
      | negative =>
          rw [hv, magnitude_negative] at hb
          exact absurd hb (neg_nonpos.mpr (magnitude_pos hn).le).not_gt

/-- What is divided by something smaller. -/
theorem attains_div (hx : Quantity.value? x = some a) (hy : Quantity.value? y = some b)
    (hb : 0 < b) (hba : b ≤ a) : Attains (nearest (a / b)) (unpacked (x / y)) := by
  have hone : 1 ≤ a / b := (one_le_div hb).mpr hba
  have hlow : (2 : Rat) ^ (-1022 : Int) ≤ |a / b| := by
    refine le_trans ?_ (hone.trans (le_abs_self _))
    exact zpow_le_one_of_nonpos₀ (by norm_num) (by decide)
  rw [← rounded_of_nonneg (zero_le_one.trans hone)]
  exact (approximates_div hx hy hb.ne').attains_of_le hlow

/-! ### Mantissas -/

theorem exists_mantissa (hx : Quantity.value? x = some a) :
    ∃ n e : Int, n.natAbs < 2 ^ 53 ∧ -1074 ≤ e ∧ a = n * 2 ^ e := by
  obtain ⟨-, rfl⟩ := value?_eq_some.mp hx
  cases hu : unpacked x with
  | finite s m e hm =>
      have hcanonical := canonical_unpacked hu
      refine ⟨s.apply m, e, ?_, hcanonical.least, ?_⟩
      · cases s <;> simpa [Sign.apply] using hcanonical.lt
      · rw [magnitude]
  | _ => exact ⟨0, 0, by decide, by decide, by simp [magnitude]⟩

theorem exists_multiple_of_least (hx : Quantity.value? x = some a) :
    ∃ n : Int, a = n * 2 ^ (-1074 : Int) := by
  obtain ⟨n, e, -, he, rfl⟩ := exists_mantissa hx
  obtain ⟨j, rfl⟩ : ∃ j : Nat, e = j + -1074 := ⟨(e + 1074).toNat, by omega⟩
  refine ⟨n * 2 ^ j, ?_⟩
  rw [zpow_add₀ (by norm_num), zpow_natCast, Int.cast_mul, Int.cast_pow, Int.cast_ofNat, mul_assoc]

theorem rounded_fitting {n : Int} (hn : n.natAbs < 2 ^ 53) (e : Int) :
    rounded (n * 2 ^ e) = n * 2 ^ e := by
  have hnat {k : Nat} (hk : k < 2 ^ 53) : rounded (k * 2 ^ e) = k * 2 ^ e := by
    rw [rounded_of_nonneg (by positivity)]
    rcases Nat.eq_zero_or_pos k with rfl | hpos
    · rw [Nat.cast_zero, zero_mul, nearest_zero]
    · exact nearest_fitting hpos hk e
  obtain ⟨k, rfl | rfl⟩ := n.eq_nat_or_neg
  · rw [Int.cast_natCast]
    exact hnat (by omega)
  · rw [Int.cast_neg, Int.cast_natCast, neg_mul, rounded_neg, hnat (by omega)]

theorem value?_four : Quantity.value? (4.0 : Float) = some 4 := by decide +kernel

theorem rounded_four_mul (hx : Quantity.value? x = some a) : rounded (4 * a) = 4 * a := by
  obtain ⟨n, e, hn, -, rfl⟩ := exists_mantissa hx
  have hscaled : 4 * (n * 2 ^ e : Rat) = n * 2 ^ (e + 2) := by
    rw [zpow_add₀ (by norm_num)]
    ring
  rw [hscaled, rounded_fitting hn]

/-- Four times a number is computed without an error, unless it is too large. -/
theorem eq_four_mul (hx : Quantity.value? x = some a)
    (hy : Quantity.value? (4.0 * x) = some b) : b = 4 * a := by
  obtain ⟨j, hj⟩ := exists_multiple_of_least hx
  obtain ⟨k, hk⟩ := exists_multiple_of_least hy
  obtain ⟨hfinite, rfl⟩ := value?_eq_some.mp hy
  have hproduct := approximates_mul value?_four hx
  generalize unpacked (4.0 * x) = u at hfinite hk hproduct
  cases hproduct with
  | attains h =>
      cases h with
      | finite _ hvalue _ => rw [hvalue, rounded_four_mul hx]
      | above => cases hfinite
      | below => cases hfinite
  | tiny _ _ _ herror =>
      -- Two multiples of the least number that are half of it apart are equal.
      have hleast : (2 : Rat) ^ (-1074 : Int) = 2 * 2 ^ (-1075 : Int) := by
        rw [← zpow_one_add₀ (by norm_num)]
        rfl
      have hpos : (0 : Rat) < 2 ^ (-1075 : Int) := by positivity
      rw [hleast] at hj hk
      generalize (2 : Rat) ^ (-1075 : Int) = half at hj hk herror hpos
      have hdifference : magnitude u - 4 * a = (k - 4 * j : Int) * 2 * half := by
        rw [hk, hj]
        push_cast
        ring
      rw [hdifference, abs_mul, abs_mul, abs_of_pos hpos, abs_two] at herror
      have hsmall : |((k - 4 * j : Int) : Rat)| < 1 := by
        have hle := le_of_mul_le_mul_right (herror.trans_eq (one_mul half).symm) hpos
        linarith
      have hzero : k - 4 * j = 0 := Int.abs_lt_one_iff.mp (by exact_mod_cast hsmall)
      rw [hzero, Int.cast_zero, zero_mul, zero_mul] at hdifference
      exact sub_eq_zero.mp hdifference

/-! ### Errors -/

namespace Approximates

variable {x : Rat} {u : UnpackedFloat} {y : Float} {b : Rat}

theorem abs_sub_le (h : Approximates x (unpacked y)) (hy : Quantity.value? y = some b) :
    |b - x| ≤ |x| / 2 ^ 53 + 2 ^ (-1075 : Int) := by
  obtain ⟨hfinite, rfl⟩ := value?_eq_some.mp hy
  have hleast : (0 : Rat) ≤ 2 ^ (-1075 : Int) := by positivity
  have hrelative : (0 : Rat) ≤ |x| / 2 ^ 53 := by positivity
  generalize unpacked y = u at h hfinite
  cases h with
  | attains h =>
      cases h with
      | finite _ hvalue _ =>
          rw [hvalue]
          linarith [abs_rounded_sub_le x]
      | above => cases hfinite
      | below => cases hfinite
  | tiny _ _ _ herror => linarith

theorem value? (h : Approximates x (unpacked y)) (hx : |x| ≤ 2 ^ (1023 : Int)) :
    ∃ b, Quantity.value? y = some b := by
  cases h with
  | attains h => exact ⟨rounded x, h.value? (abs_rounded_lt hx)⟩
  | tiny hu _ _ _ => exact ⟨_, value?_eq_some.mpr ⟨hu, rfl⟩⟩

theorem value?_eq_rounded (h : Approximates x (unpacked y)) (hx : |x| ≤ 2 ^ (1023 : Int))
    (hlow : x ≠ 0 → 2 ^ (-1022 : Int) ≤ |x|) : Quantity.value? y = some (rounded x) := by
  cases h with
  | attains h => exact h.value? (abs_rounded_lt hx)
  | tiny _ hne hlt _ => exact absurd hlt (hlow hne).not_gt

theorem eq_infinity_iff (h : Approximates x u) : u = .infinity .positive ↔ limit ≤ rounded x := by
  cases h with
  | attains h =>
      cases h with
      | finite hu _ hbound =>
          refine iff_of_false ?_ (not_le.mpr (abs_lt.mp hbound).2)
          rintro rfl
          cases hu
      | above h => exact iff_of_true rfl h
      | below h =>
          refine iff_of_false ?_ (not_le.mpr (by linarith [limit_pos]))
          rintro ⟨⟩
  | tiny hu _ hlt _ =>
      have hsmall : |x| ≤ 2 ^ (1023 : Int) :=
        hlt.le.trans (zpow_le_zpow_right₀ (by norm_num) (by decide))
      refine iff_of_false ?_ (not_le.mpr (abs_lt.mp (abs_rounded_lt hsmall)).2)
      rintro rfl
      cases hu

/-- What has no value is too large. -/
theorem exists_infinity (h : Approximates x (unpacked y)) (hy : Quantity.value? y = none) :
    ∃ s, unpacked y = .infinity s := by
  have hnot : ¬(unpacked y).isFinite = true := by
    rw [← isFinite_iff, Quantity.isFinite, hy]
    exact Bool.false_ne_true
  generalize unpacked y = u at h hnot
  cases h with
  | attains h =>
      cases h with
      | finite hu _ _ => exact absurd hu hnot
      | above => exact ⟨.positive, rfl⟩
      | below => exact ⟨.negative, rfl⟩
  | tiny hu _ _ _ => exact absurd hu hnot

end Approximates

end MusicPart.Binary64
