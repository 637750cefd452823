import Mathlib
import MusicPart.Quantity.Binary64
import MusicPart.Proofs.Numerals

/-!
# Whole numbers in binary64

A whole number below 2⁵³ has its own mantissa and exponent. Sums of its digits apart, nothing is
rounded on the way to it: it is read, multiplied, divided without a rest, rounded to six places
and written without loss. A numeral of moderate length, whole or not, has a finite value.
-/

namespace MusicPart.Binary64

open Float.Model
open Float.Model.UnpackedFloat

/-! ### Packing and rounding -/

theorem unpackSign_packComponents {spec : Format} {s : Sign} {e m} :
    unpackSign (packComponents spec s e m) = s.toBitVec := by
  ext i hi
  obtain rfl : i = 0 := by omega
  simp [unpackSign, packComponents, BitVec.getElem_append, BitVec.getLsbD_append]

theorem ofBitVec_toBitVec (s : Sign) : Sign.ofBitVec s.toBitVec = s := by cases s <;> rfl

theorem toNat_implicit_append {m : Nat} (hlow : 2 ^ 52 ≤ m) (hhigh : m < 2 ^ 53) :
    (1#1 ++ BitVec.ofNat 52 m).toNat = m := by
  have h := (BitVec.ofNat 52 m).isLt
  rw [BitVec.toNat_append, ← Nat.shiftLeft_add_eq_or_of_lt h, Nat.shiftLeft_eq,
    BitVec.toNat_ofNat]
  change 1 * 2 ^ 52 + m % 2 ^ 52 = m
  omega

theorem unpack_pack (f : UnpackedFloat) : (Float.Model.pack f).unpack =
    UnpackedFloat.unpack Format.binary64 (UnpackedFloat.pack Format.binary64 f) := rfl

/-- A normal number is unpacked as it was packed. -/
theorem unpack_pack_normal (s : Sign) {m : Nat} {e : Int} (hm : 0 < m) (hlog : m.log2 = 52)
    (hlow : -1074 ≤ e) (hhigh : e ≤ 971) :
    (Float.Model.pack (.finite s m e hm)).unpack = .finite s m e hm := by
  have hbounds := (Nat.log2_eq_iff hm.ne').mp hlog
  obtain ⟨b, hb⟩ : ∃ b : Nat, e + 1075 = b := ⟨(e + 1075).toNat, by omega⟩
  have hbiased : (e + (Format.binary64.exponentBias : Int) + ((52 : Nat) : Int)).toNat = b := by
    change (e + 1023 + 52).toNat = b
    omega
  have hexp : (BitVec.ofNat 11 b).toNat = b := by
    rw [BitVec.toNat_ofNat, Nat.mod_eq_of_lt (by omega)]
  have hones : BitVec.ofNat 11 b ≠ -1#11 := by
    intro h
    have := congrArg BitVec.toNat h
    rw [hexp] at this
    simp at this
    omega
  have hzero : BitVec.ofNat 11 b ≠ 0#11 := by
    intro h
    have := congrArg BitVec.toNat h
    rw [hexp] at this
    simp at this
    omega
  rw [unpack_pack, UnpackedFloat.pack]
  simp only [hbiased]
  rw [if_neg (by change ¬ 2048 ≤ b + 1; omega), if_pos (by rw [hlog]; rfl), UnpackedFloat.unpack]
  simp only [unpackMantissa_packComponents, unpackExponent_packComponents,
    unpackSign_packComponents, ofBitVec_toBitVec, hones, hzero, if_false,
    toNat_implicit_append hbounds.1 hbounds.2, hexp]
  congr 1
  change (b : Int) - (1023 + 52) = e
  omega

theorem shiftRight_mul_pow (m k : Nat) :
    ExtendedMantissa.ofMantissaAndAccuracy (m * 2 ^ k) .exact >>> k =
      ExtendedMantissa.ofMantissaAndAccuracy m .exact := by
  change k.repeat ExtendedMantissa.shiftRightOne _ = _
  induction k generalizing m with
  | zero => simp [Nat.repeat]
  | succ k ih =>
      rw [Nat.repeat, pow_succ', ← mul_assoc, ih]
      simp [ExtendedMantissa.ofMantissaAndAccuracy, ExtendedMantissa.shiftRightOne]

theorem targetExponent_eq (m : Nat) (e : Int) :
    Format.binary64.targetExponent (totalExponent m e) = max (m.log2 + e - 52) (-1074) := by
  simp only [Format.targetExponent, totalExponent, Format.mantissaBits, Format.minExponent]
  norm_num
  omega

theorem log2_mul_pow {m : Nat} (hm : 0 < m) (k : Nat) : (m * 2 ^ k).log2 = m.log2 + k := by
  have hbounds := (Nat.log2_eq_iff hm.ne').mp rfl
  refine (Nat.log2_eq_iff (by positivity)).mpr ⟨?_, ?_⟩
  · rw [pow_add]
    exact Nat.mul_le_mul_right _ hbounds.1
  · rw [Nat.add_right_comm, pow_add]
    exact Nat.mul_lt_mul_of_pos_right hbounds.2 (by positivity)

/-- A mantissa that has zeros to spare is shifted until it fits. -/
theorem shiftToTargetExponent_fitting {m : Nat} {e : Int} (hm : 0 < m) (hlog : m.log2 = 52)
    (hlow : -1074 ≤ e) (k : Nat) :
    shiftToTargetExponent Format.binary64 (m * 2 ^ k) (e - k) .exact =
      (ExtendedMantissa.ofMantissaAndAccuracy m .exact, e) := by
  have hshift : (max ((m * 2 ^ k).log2 + (e - k) - 52) (-1074) - (e - k)).toNat = k := by
    rw [log2_mul_pow hm, hlog]
    omega
  rw [shiftToTargetExponent, targetExponent_eq, shiftToExponent]
  simp only [hshift, shiftRight_mul_pow, sub_add_cancel]

/-- Rounding keeps a number that fits. -/
theorem roundWithAccuracy_fitting (s : Sign) {m : Nat} {e : Int} (hm : 0 < m) (hlog : m.log2 = 52)
    (hlow : -1074 ≤ e) (k : Nat) :
    roundWithAccuracy Format.binary64 s (m * 2 ^ k) (e - k) .exact = .finite s m e hm := by
  have hfirst := shiftToTargetExponent_fitting hm hlog hlow k
  have hsecond : shiftToTargetExponent Format.binary64 m e .exact =
      (ExtendedMantissa.ofMantissaAndAccuracy m .exact, e) := by
    simpa using shiftToTargetExponent_fitting hm hlog hlow 0
  have hrounded : (ExtendedMantissa.ofMantissaAndAccuracy m .exact).roundedMantissa = m := rfl
  have hmantissa : (ExtendedMantissa.ofMantissaAndAccuracy m .exact).mantissa = m := rfl
  rw [roundWithAccuracy]
  simp only [hfirst, hrounded, hsecond, hmantissa, dif_neg hm.ne']

/-! ### Whole numbers -/

/-- A whole number in the form that fits; zero has a sign too. -/
def unpackedWhole (s : Sign) (n : Nat) : UnpackedFloat :=
  if h : n = 0 then .zero s
  else .finite s (n * 2 ^ (52 - n.log2)) (n.log2 - 52)
    (Nat.mul_pos (Nat.pos_of_ne_zero h) (Nat.two_pow_pos _))

def whole (s : Sign) (n : Nat) : Float := .ofModel (.pack (unpackedWhole s n))

variable {n : Nat} {s t : Sign}

theorem log2_le (h : n < 2 ^ 53) : n.log2 ≤ 52 := by
  rcases Nat.eq_zero_or_pos n with rfl | hn
  · decide
  · exact Nat.lt_succ_iff.mp ((Nat.log2_lt hn.ne').mpr h)

theorem unpack_zero : (Float.Model.pack (.zero s)).unpack = .zero s := by
  cases s <;> rfl

theorem unpack_whole (h : n < 2 ^ 53) : (whole s n).toModel.unpack = unpackedWhole s n := by
  rw [whole, unpackedWhole]
  split_ifs with hn
  · exact unpack_zero
  · have hlog := log2_le h
    refine unpack_pack_normal s _ ?_ (by omega) (by omega)
    rw [log2_mul_pow (Nat.pos_of_ne_zero hn)]
    omega

theorem roundWithAccuracy_whole (hpos : 0 < n) (h : n < 2 ^ 53) {k : Nat} (hk : 52 - n.log2 ≤ k) :
    roundWithAccuracy Format.binary64 s (n * 2 ^ k) (-k) .exact = unpackedWhole s n := by
  have hlog := log2_le h
  have hmantissa : n * 2 ^ k = n * 2 ^ (52 - n.log2) * 2 ^ (k - (52 - n.log2)) := by
    rw [mul_assoc, ← pow_add, Nat.add_sub_cancel' hk]
  have hexponent : (-k : Int) = (n.log2 - 52 : Int) - (k - (52 - n.log2) : Nat) := by omega
  rw [unpackedWhole, dif_neg hpos.ne', hmantissa, hexponent,
    roundWithAccuracy_fitting s _ _ (by omega)]
  rw [log2_mul_pow hpos]
  omega

theorem toFloat_toUInt64 (h : n < 2 ^ 53) : n.toUInt64.toFloat = whole .positive n := by
  have hword : n.toUInt64.toNat = n := by
    rw [Nat.toUInt64_eq, UInt64.toNat_ofNat']
    omega
  change Float.ofModel (.pack (UnpackedFloat.normalize Format.binary64
    (n.toUInt64.toNat : Int) 0 .positive)) = _
  rw [hword, whole, UnpackedFloat.normalize]
  rcases Nat.eq_zero_or_pos n with rfl | hpos
  · rfl
  · have hcompare : compare (n : Int) 0 = .gt := Int.compare_eq_gt.mpr (by omega)
    have hlog := log2_le h
    have hshift : (-max ((n.log2 : Int) + 0 - 52) (-1074)).toNat = 52 - n.log2 := by omega
    rw [hcompare]
    simp only [UnpackedFloat.round, Int.toNat_natCast, decreaseExponent, targetExponent_eq, hshift,
      Nat.shiftLeft_eq, zero_sub, roundWithAccuracy_whole hpos h le_rfl]

theorem log2_add_le {a b : Nat} (ha : 0 < a) (hb : 0 < b) : a.log2 + b.log2 ≤ (a * b).log2 := by
  rw [Nat.le_log2 (by positivity), pow_add]
  exact Nat.mul_le_mul (Nat.log2_self_le ha.ne') (Nat.log2_self_le hb.ne')

theorem log2_le_add {a b : Nat} (ha : 0 < a) (hb : 0 < b) :
    (a * b).log2 ≤ a.log2 + b.log2 + 1 := by
  refine Nat.lt_succ_iff.mp ((Nat.log2_lt (by positivity)).mpr ?_)
  rw [show (a.log2 + b.log2 + 1).succ = (a.log2 + 1) + (b.log2 + 1) by omega, pow_add]
  exact Nat.mul_lt_mul'' Nat.lt_log2_self Nat.lt_log2_self

theorem whole_mul {a b : Nat} (ha : a < 2 ^ 53) (hb : b < 2 ^ 53) (hab : a * b < 2 ^ 53) :
    whole s a * whole t b = whole (s * t) (a * b) := by
  change Float.ofModel (.pack (UnpackedFloat.mul Format.binary64 (whole s a).toModel.unpack
    (whole t b).toModel.unpack)) = _
  rw [unpack_whole ha, unpack_whole hb, whole]
  congr 2
  rcases Nat.eq_zero_or_pos a with rfl | hpa <;> rcases Nat.eq_zero_or_pos b with rfl | hpb
  · simp [unpackedWhole, UnpackedFloat.mul]
  · simp [unpackedWhole, UnpackedFloat.mul, hpb.ne']
  · simp [unpackedWhole, UnpackedFloat.mul, hpa.ne']
  · have hla := log2_le ha
    have hlb := log2_le hb
    have hlog := log2_add_le hpa hpb
    have hround := roundWithAccuracy_whole (s := s * t) (Nat.mul_pos hpa hpb) hab
      (k := (52 - a.log2) + (52 - b.log2)) (by omega)
    rw [← hround, unpackedWhole, unpackedWhole, dif_neg hpa.ne', dif_neg hpb.ne',
      UnpackedFloat.mul]
    congr 1
    · rw [pow_add]
      ring
    · omega

theorem divCore_normal {m n : Nat} {e f : Int} (hm : m.log2 = 52) (hn : n.log2 = 52)
    (hef : -1000 ≤ e - f) : divCore Format.binary64 m e n f =
      (m * 2 ^ 53 / n, e - f - 53, accuracyOfFraction (m * 2 ^ 53 % n) n) := by
  have htarget : min (e - f)
      (Format.binary64.targetExponent (totalExponent m e - totalExponent n f)) = e - f - 53 := by
    simp only [totalExponent, hm, hn, Format.targetExponent, Format.mantissaBits,
      Format.minExponent]
    norm_num
    omega
  have hshift : (e - f - (e - f - 53)).toNat = 53 := by omega
  rw [divCore, htarget, hshift, Nat.shiftLeft_eq]

theorem whole_div {a b : Nat} (hb : 0 < b) (hb' : b < 2 ^ 53) (hab : a * b < 2 ^ 53) :
    whole s (a * b) / whole t b = whole (s / t) a := by
  change Float.ofModel (.pack (UnpackedFloat.div Format.binary64 (whole s (a * b)).toModel.unpack
    (whole t b).toModel.unpack)) = _
  rw [unpack_whole hab, unpack_whole hb', whole]
  congr 2
  rcases Nat.eq_zero_or_pos a with rfl | ha
  · simp [unpackedWhole, UnpackedFloat.div, hb.ne']
  · have hlab := log2_le hab
    have hlb := log2_le hb'
    have hlog := log2_le_add ha hb
    have ha' : a < 2 ^ 53 := (Nat.le_mul_of_pos_right a hb).trans_lt hab
    have hpos := Nat.mul_pos ha hb
    have hdivisor : 0 < b * 2 ^ (52 - b.log2) := by positivity
    have hdividend : a * b * 2 ^ (52 - (a * b).log2) * 2 ^ 53 =
        b * 2 ^ (52 - b.log2) * (a * 2 ^ (53 + b.log2 - (a * b).log2)) := by
      have hpow : 2 ^ (52 - (a * b).log2) * 2 ^ 53 =
          2 ^ (52 - b.log2) * 2 ^ (53 + b.log2 - (a * b).log2) := by
        rw [← pow_add, ← pow_add]
        congr 1
        omega
      rw [mul_assoc, hpow]
      ring
    rw [unpackedWhole, dif_neg hpos.ne', unpackedWhole, dif_neg hb.ne', UnpackedFloat.div,
      divCore_normal (by rw [log2_mul_pow hpos]; omega) (by rw [log2_mul_pow hb]; omega) (by omega),
      hdividend, Nat.mul_div_cancel_left _ hdivisor, Nat.mul_mod_right, accuracyOfFraction,
      if_pos rfl, ← roundWithAccuracy_whole ha ha' (k := 53 + b.log2 - (a * b).log2) (by omega)]
    exact congrArg (roundWithAccuracy _ _ _ · _) (by omega)

theorem whole_neg (h : n < 2 ^ 53) : -whole s n = whole (-s) n := by
  change Float.ofModel (.pack (whole s n).toModel.unpack.neg) = _
  rw [unpack_whole h, whole]
  congr 2
  rw [unpackedWhole, unpackedWhole]
  split_ifs <;> rfl

theorem value?_whole (h : n < 2 ^ 53) : value? (whole s n) = some (s.apply n : Rat) := by
  have hlog := log2_le h
  rw [value?, unpack_whole h, unpackedWhole]
  split_ifs with hn
  · subst hn
    cases s <;> rfl
  · have hpow : ((2 ^ (52 - n.log2) : Nat) : Rat) * (2 : Rat) ^ ((n.log2 : Int) - 52) = 1 := by
      push_cast
      rw [← zpow_natCast, ← zpow_add₀ (by norm_num)]
      rw [show ((52 - n.log2 : Nat) : Int) + ((n.log2 : Int) - 52) = 0 by omega, zpow_zero]
    cases s
    · simp only [Sign.apply]
      push_cast at hpow ⊢
      rw [neg_mul, mul_assoc, hpow, mul_one]
    · simp only [Sign.apply]
      push_cast at hpow ⊢
      rw [mul_assoc, hpow, mul_one]

/-! ### Numbers of the arithmetic -/

theorem ofScientific_eq (h : n < 2 ^ 53) :
    (OfScientific.ofScientific n false 0 : Float) = whole .positive n := by
  have hone : Float.exactlyRepresentablePowersOfTen[0] = whole .positive 1 := by decide
  have hfast : n < 2 ^ 53 ∧ 0 ≤ 22 := ⟨h, by decide⟩
  change Float.ofScientific n false 0 = _
  rw [Float.ofScientific, dif_pos hfast]
  simp only [Bool.false_eq_true, if_false]
  rw [hone, toFloat_toUInt64 h, whole_mul h (by norm_num) (by omega), mul_one]
  rfl

def signOf (n : Int) : Sign := if n < 0 then .negative else .positive

theorem ofInt_eq {n : Int} (h : n.natAbs < 2 ^ 53) :
    (Quantity.ofInt n : Float) = whole (signOf n) n.natAbs := by
  cases n with
  | ofNat n => exact ofScientific_eq h
  | negSucc n =>
      have hlt : n + 1 < 2 ^ 53 := h
      have hinteger : (Quantity.ofInt (.negSucc n) : Float) =
          -(OfScientific.ofScientific (n + 1) false 0 : Float) := rfl
      have hsign : signOf (.negSucc n) = .negative := if_pos (Int.negSucc_lt_zero n)
      rw [hinteger, ofScientific_eq hlt, whole_neg hlt, hsign]
      rfl

theorem apply_signOf (n : Int) : (signOf n).apply n.natAbs = n := by
  rw [signOf]
  split_ifs with h
  · change -(n.natAbs : Int) = n
    omega
  · change (n.natAbs : Int) = n
    omega

theorem natAbs_apply (s : Sign) (n : Nat) : (s.apply n).natAbs = n := by
  cases s <;> simp [Sign.apply]

theorem value?_ofInt {n : Int} (h : n.natAbs < 2 ^ 53) :
    Quantity.value? (Quantity.ofInt n : Float) = some (n : Rat) := by
  rw [ofInt_eq h]
  refine (value?_whole h).trans ?_
  rw [apply_signOf]

theorem million_eq : (1e6 : Float) = whole .positive 1000000 := by decide

theorem roundHalfAway_intCast (n : Int) : Quantity.roundHalfAway (n : Rat) = n := by
  have hfloor (m : Int) : ((m : Rat) + 1 / 2).floor = m := by
    change ⌊(m : Rat) + 1 / 2⌋ = m
    rw [Int.floor_eq_iff]
    constructor <;> linarith
  rw [Quantity.roundHalfAway]
  split_ifs
  · rw [← Int.cast_neg, hfloor, neg_neg]
  · exact hfloor n

theorem signOf_apply_mul (s : Sign) (n : Nat) {k : Nat} (hk : 0 < k) :
    signOf (s.apply (n * k : Nat)) / .positive = signOf (s.apply n) := by
  have hdiv (t : Sign) : t / .positive = t := by cases t <;> rfl
  have hsign : s.apply (n * k : Nat) < 0 ↔ s.apply n < 0 := by
    have hpos : 0 < n * k ↔ 0 < n := by simp [hk]
    cases s
    · simp only [Sign.apply]
      omega
    · simp only [Sign.apply]
      omega
  rw [hdiv, signOf, signOf]
  simp only [hsign]

/-- Rounding to six places keeps a whole number of moderate size, less the sign of a zero. -/
theorem roundTo_whole (h : n * 1000000 < 2 ^ 53) :
    Quantity.roundTo 1e6 (whole s n) = Quantity.ofInt (s.apply n) := by
  have hn : n < 2 ^ 53 := (Nat.le_mul_of_pos_right n (by decide)).trans_lt h
  have hmul : whole s n * whole .positive 1000000 = whole (s * .positive) (n * 1000000) :=
    whole_mul hn (by norm_num) h
  have hs : s * .positive = s := by cases s <;> rfl
  have hvalue : Quantity.value? (whole s (n * 1000000)) =
      some ((s.apply (n * 1000000 : Nat) : Int) : Rat) := value?_whole h
  have habs : (s.apply (n * 1000000 : Nat)).natAbs = n * 1000000 := natAbs_apply s _
  rw [Quantity.roundTo]
  change Quantity.round (whole s n * (1e6 : Float)) / (1e6 : Float) = _
  rw [million_eq, hmul, hs, Quantity.round, Quantity.mapWhole, hvalue]
  change (Quantity.ofInt (Quantity.roundHalfAway ((s.apply (n * 1000000 : Nat) : Int) : Rat)) :
    Float) / whole .positive 1000000 = _
  rw [roundHalfAway_intCast, ofInt_eq (by rw [habs]; exact h), habs,
    whole_div (by decide) (by norm_num) h, ofInt_eq (by rw [natAbs_apply]; exact hn), natAbs_apply,
    signOf_apply_mul s n (by decide)]

/-! ### Numbers that stay finite -/

/-- A number whose exponent is in the range of the format. -/
def Bounded : UnpackedFloat → Prop
  | .zero _ => True
  | .finite _ _ e _ => e ≤ 971
  | _ => False

theorem isFinite_unpack_components {e : BitVec 11} (he : e ≠ -1#11) (s : Sign) (m : BitVec 52) :
    (UnpackedFloat.unpack Format.binary64 (packComponents Format.binary64 s e m)).isFinite =
      true := by
  rw [UnpackedFloat.unpack]
  simp only [unpackMantissa_packComponents, unpackExponent_packComponents, he, if_false]
  split_ifs <;> rfl

theorem isFinite_unpack_pack {f : UnpackedFloat} (h : Bounded f) :
    (Float.Model.pack f).unpack.isFinite = true := by
  cases f with
  | zero s => rw [unpack_zero]; rfl
  | infinity s => exact h.elim
  | notANumber => exact h.elim
  | finite s m e hm =>
      have hexp : (e + (Format.binary64.exponentBias : Int) + ((52 : Nat) : Int)).toNat < 2047 := by
        change (e + 1023 + 52).toNat < 2047
        have : e ≤ 971 := h
        omega
      have hones : BitVec.ofNat 11
          (e + (Format.binary64.exponentBias : Int) + ((52 : Nat) : Int)).toNat ≠ -1#11 := by
        intro hones
        have := congrArg BitVec.toNat hones
        rw [BitVec.toNat_ofNat, Nat.mod_eq_of_lt (by omega)] at this
        simp at this
        omega
      rw [unpack_pack, UnpackedFloat.pack]
      simp only
      rw [if_neg (by change ¬ 2048 ≤ _; omega)]
      split_ifs
      · exact isFinite_unpack_components hones s _
      · exact isFinite_unpack_components (by decide) s _

theorem shiftRight_mantissa_le (em : ExtendedMantissa) (k : Nat) :
    (em >>> k).mantissa ≤ em.mantissa := by
  change (k.repeat ExtendedMantissa.shiftRightOne em).mantissa ≤ _
  induction k with
  | zero => exact le_rfl
  | succ k ih => exact (Nat.div_le_self _ 2).trans ih

theorem roundedMantissa_le (em : ExtendedMantissa) : em.roundedMantissa ≤ em.mantissa + 1 := by
  rcases em with ⟨m, round, sticky⟩
  cases round <;> cases sticky <;>
    simp only [ExtendedMantissa.roundedMantissa, ExtendedMantissa.accuracy,
      Accuracy.roundToNearestEven] <;> omega

theorem shiftToTargetExponent_le {m j : Nat} (hm : m < 2 ^ j) (e : Int) (a : Accuracy) :
    (shiftToTargetExponent Format.binary64 m e a).1.mantissa ≤ m ∧
      (shiftToTargetExponent Format.binary64 m e a).2 ≤ max (max e (e + j - 52)) (-1074) := by
  rw [shiftToTargetExponent, targetExponent_eq, shiftToExponent]
  constructor
  · refine (shiftRight_mantissa_le _ _).trans ?_
    rcases a with _ | _ | _ | _ <;> exact le_rfl
  · have hlog : m.log2 ≤ j := by
      rcases Nat.eq_zero_or_pos m with rfl | hpos
      · simp
      · exact ((Nat.log2_lt hpos.ne').mpr hm).le
    dsimp only
    omega

theorem bounded_roundWithAccuracy {m j : Nat} (hj : j ≤ 320) (hm : m < 2 ^ j) {e : Int}
    (he : e ≤ 100) (s : Sign) (a : Accuracy) :
    Bounded (roundWithAccuracy Format.binary64 s m e a) := by
  obtain ⟨hfirst, hexp⟩ := shiftToTargetExponent_le hm e a
  have hrounded : (shiftToTargetExponent Format.binary64 m e a).1.roundedMantissa <
      2 ^ (j + 1) := by
    refine (roundedMantissa_le _).trans_lt ?_
    rw [pow_succ]
    omega
  obtain ⟨-, hexp'⟩ := shiftToTargetExponent_le hrounded
    (shiftToTargetExponent Format.binary64 m e a).2 .exact
  rw [roundWithAccuracy]
  dsimp only
  split_ifs
  · trivial
  · change _ ≤ 971
    push_cast at hexp hexp'
    omega

/-- A quotient is taken after the dividend has been shifted by few places. -/
theorem bounded_div {m n j : Nat} (hm : 0 < m) (hn : 0 < n) (hj : j ≤ 212) (hmj : m < 2 ^ j)
    (hnb : n.log2 ≤ 52) {e f : Int} (hef : e - f ≤ 100) (hef' : -1000 ≤ e - f) (s t : Sign) :
    Bounded (UnpackedFloat.div Format.binary64 (.finite s m e hm) (.finite t n f hn)) := by
  have htarget : Format.binary64.targetExponent (totalExponent m e - totalExponent n f) =
      max (m.log2 + e - n.log2 - f - 53) (-1074) := by
    simp only [Format.targetExponent, totalExponent, Format.mantissaBits, Format.minExponent]
    norm_num
    omega
  have hlog : m.log2 < j := (Nat.log2_lt hm.ne').mpr hmj
  have hshift :
      (e - f - min (e - f) (max (m.log2 + e - n.log2 - f - 53) (-1074))).toNat ≤ 106 := by
    omega
  rw [UnpackedFloat.div, divCore]
  simp only [htarget, Nat.shiftLeft_eq]
  refine bounded_roundWithAccuracy (j := j + 106) (by omega) ?_ ((min_le_left _ _).trans hef) _ _
  calc m * 2 ^ _ / n ≤ m * 2 ^ _ := Nat.div_le_self _ _
    _ ≤ m * 2 ^ 106 := Nat.mul_le_mul_left _ (Nat.pow_le_pow_right (by decide) hshift)
    _ < 2 ^ j * 2 ^ 106 := Nat.mul_lt_mul_of_pos_right hmj (by positivity)
    _ = 2 ^ (j + 106) := (pow_add _ _ _).symm

theorem bounded_mul {m n j : Nat} (hm : 0 < m) (hn : 0 < n) (hj : j ≤ 320) (hmn : m * n < 2 ^ j)
    {e f : Int} (hef : e + f ≤ 100) (s t : Sign) :
    Bounded (UnpackedFloat.mul Format.binary64 (.finite s m e hm) (.finite t n f hn)) :=
  bounded_roundWithAccuracy hj hmn hef _ _

theorem bounded_ofScientific {m j k : Nat} (hj : j ≤ 212) (hm : m < 2 ^ j) (hk : k ≤ 6) :
    Bounded (UnpackedFloat.ofScientific Format.binary64 m (-k)) := by
  rw [UnpackedFloat.ofScientific]
  split_ifs with hzero hlarge hsmall hk'
  · trivial
  · change (-k : Int) > 2 ^ 11 at hlarge
    omega
  · trivial
  · obtain rfl : k = 0 := by omega
    have hbits : Format.binary64.mantissaBits = 53 := rfl
    have hone : 10 ^ (-((0 : Nat) : Int)).toNat = 1 := rfl
    have hproduct : m <<< Format.binary64.mantissaBits * 10 ^ (-((0 : Nat) : Int)).toNat <
        2 ^ (j + 53) := by
      rw [Nat.shiftLeft_eq, hbits, hone, mul_one, pow_add]
      exact Nat.mul_lt_mul_of_pos_right hm (by positivity)
    exact bounded_mul _ _ (by omega) hproduct (by decide) _ _
  · have hpower : 10 ^ (- -(k : Int)).toNat < 2 ^ 52 := by
      rw [neg_neg, Int.toNat_natCast]
      exact (Nat.pow_le_pow_right (by decide) hk).trans_lt (by norm_num)
    refine bounded_div _ _ hj hm ?_ (by decide) (by decide) _ _
    exact ((Nat.log2_lt (by positivity)).mpr hpower).le

theorem isFinite_of_bounded {f : UnpackedFloat} (h : Bounded f) :
    Quantity.isFinite (Float.ofModel (.pack f)) = true := by
  have hfinite := isFinite_unpack_pack h
  change (value? (Float.ofModel (.pack f))).isSome = true
  rw [value?]
  dsimp only
  revert hfinite
  cases (Float.Model.pack f).unpack <;> simp [UnpackedFloat.isFinite]

theorem isFinite_whole (h : n < 2 ^ 53) : Quantity.isFinite (whole s n) = true := by
  change (value? (whole s n)).isSome = true
  rw [value?_whole h]
  rfl

theorem table_eq {k : Nat} (hk : k ≤ 6) :
    ∃ h, getElem Float.exactlyRepresentablePowersOfTen k h = whole .positive (10 ^ k) := by
  interval_cases k <;> exact ⟨by decide, by decide⟩

theorem isFinite_whole_div {a b : Nat} (ha : a < 2 ^ 53) (hb : 0 < b) (hb' : b < 2 ^ 53) :
    Quantity.isFinite (whole s a / whole t b) = true := by
  change Quantity.isFinite (Float.ofModel (.pack (UnpackedFloat.div Format.binary64
    (whole s a).toModel.unpack (whole t b).toModel.unpack))) = true
  refine isFinite_of_bounded ?_
  rw [unpack_whole ha, unpack_whole hb']
  rcases Nat.eq_zero_or_pos a with rfl | hpos
  · simp [unpackedWhole, UnpackedFloat.div, hb.ne', Bounded]
  · have hla := log2_le ha
    have hlb := log2_le hb'
    rw [unpackedWhole, dif_neg hpos.ne', unpackedWhole, dif_neg hb.ne']
    refine bounded_div (j := 53) _ _ (by decide) ?_ ?_ (by omega) (by omega) s t
    · refine (Nat.log2_lt (by positivity)).mp ?_
      rw [log2_mul_pow hpos]
      omega
    · rw [log2_mul_pow hb]
      omega

/-- A numeral of moderate length has a finite value. -/
theorem isFinite_ofScientific {m k : Nat} (hm : m < 10 ^ 63) (hk : k ≤ 6) :
    Quantity.isFinite (OfScientific.ofScientific m (-(k : Int) < 0) k : Float) = true := by
  change Quantity.isFinite (Float.ofScientific m (-(k : Int) < 0) k) = true
  by_cases hfast : m < 2 ^ 53
  · rcases Nat.eq_zero_or_pos k with rfl | hpos
    · have hwhole := isFinite_whole (s := .positive) hfast
      rwa [← ofScientific_eq hfast] at hwhole
    · obtain ⟨htable, hpower⟩ := table_eq hk
      have hsign : decide (-(k : Int) < 0) = true := by simpa using hpos
      have hrange : m < 2 ^ 53 ∧ k ≤ 22 := ⟨hfast, by omega⟩
      rw [Float.ofScientific, dif_pos hrange, hsign]
      simp only [if_true, toFloat_toUInt64 hfast, hpower]
      refine isFinite_whole_div hfast (by positivity) ?_
      exact (Nat.pow_le_pow_right (by decide) hk).trans_lt (by norm_num)
  · have hexponent :
        (if decide (-(k : Int) < 0) = true then Int.negOfNat k else Int.ofNat k) = -k := by
      rw [Int.negOfNat_eq]
      split_ifs with h
      · rfl
      · have : k = 0 := by simpa using h
        simp [this]
    rw [Float.ofScientific, dif_neg fun h => hfast h.1, hexponent]
    have hbound : m < 2 ^ 211 := hm.trans (by norm_num)
    exact isFinite_of_bounded (bounded_ofScientific (by decide) hbound hk)

theorem bounded_unpack {b : BitVec Format.binary64.numBits}
    (h : (UnpackedFloat.unpack Format.binary64 b).isFinite = true) :
    Bounded (UnpackedFloat.unpack Format.binary64 b) := by
  have hbias : (Format.binary64.exponentBias : Int) = 1023 := rfl
  have hexp : (unpackExponent b).toNat < 2048 :=
    BitVec.isLt _
  rw [UnpackedFloat.unpack] at h ⊢
  simp only at h ⊢
  split_ifs at h ⊢ with hones hnone hzero hnone
  · exact Bool.noConfusion h
  · exact Bool.noConfusion h
  · trivial
  · change _ ≤ (971 : Int)
    rw [hzero, hbias]
    decide
  · have hlt : (unpackExponent b).toNat ≠ 2047 :=
      fun heq => hones (BitVec.eq_of_toNat_eq heq)
    change (_ : Int) - (_ + 52) ≤ 971
    rw [hbias]
    omega

theorem isFinite_neg {x : Float} (h : Quantity.isFinite x = true) :
    Quantity.isFinite (-x) = true := by
  have hbounded : Bounded x.toModel.unpack := by
    refine bounded_unpack ?_
    change (value? x).isSome = true at h
    rw [value?] at h
    change x.toModel.unpack.isFinite = true
    revert h
    cases x.toModel.unpack <;> simp [UnpackedFloat.isFinite]
  change Quantity.isFinite (Float.ofModel (.pack x.toModel.unpack.neg)) = true
  refine isFinite_of_bounded ?_
  revert hbounded
  cases x.toModel.unpack <;> exact id

/-! ### Written and read -/

open Numeral (Decimal signed)

theorem signed_ofScientific {n : Int} (h : n.natAbs < 2 ^ 53) :
    signed (n < 0) (OfScientific.ofScientific n.natAbs false 0 : Float) = Quantity.ofInt n := by
  rw [ofScientific_eq h, ofInt_eq h, signed, signOf]
  by_cases hn : n < 0
  · simp only [hn, decide_true, if_true]
    exact whole_neg h
  · simp only [hn, decide_false, Bool.false_eq_true, if_false]

/-- A whole number is read back from its decimal text. -/
theorem finite?_ofInt {n : Int} (h : n.natAbs < 2 ^ 53) :
    Numeral.finite? (Decimal.ofInt n).text = some (Quantity.ofInt n : Float) := by
  have hdigits : Text.digitsValue ((Decimal.ofInt n).whole ++ (Decimal.ofInt n).fraction) =
      n.natAbs := by
    rw [Decimal.ofInt, List.append_nil, Text.digitsValue_ofNat]
  have hfinite : Quantity.isFinite (Quantity.ofInt n : Float) = true := by
    rw [ofInt_eq h]
    exact isFinite_whole h
  rw [Decimal.finite?_text, hdigits, ← Option.filter_some_pos hfinite, ← signed_ofScientific h]
  rfl

/-- A whole number of moderate size is written in decimal digits, without the sign of a zero. -/
theorem render_whole {s : Sign} {n : Nat} (h : n ≤ 10 ^ 9) :
    SixPlaces.render (whole s n) = (Decimal.ofInt (s.apply n)).text := by
  have hn : n < 2 ^ 53 := h.trans_lt (by norm_num)
  have hmillion : n * 1000000 < 2 ^ 53 :=
    (Nat.mul_le_mul_right _ h).trans_lt (by norm_num)
  refine SixPlaces.render_eq_of_value? (isFinite_whole hn) ?_ ?_
  · rw [roundTo_whole hmillion]
    exact value?_ofInt (by rw [natAbs_apply]; exact hn)
  · rw [natAbs_apply]
    exact h

/-- A number that rounding leaves finite is written as a text that is read as some number. -/
theorem exists_finite?_render {x : Float} (hx : Quantity.isFinite x = true)
    (hrounded : Quantity.isFinite (Quantity.roundTo 1e6 x) = true) :
    ∃ y : Float, Numeral.finite? (SixPlaces.render x) = some y := by
  obtain ⟨d, hd, hlength, hfraction⟩ := SixPlaces.exists_render_eq hx hrounded
  have hdigits : ∀ b ∈ d.whole ++ d.fraction, Text.isDigit b = true := by
    intro b hb
    exact (List.mem_append.mp hb).elim (d.whole_digits b) (d.fraction_digits b)
  have hvalue : Text.digitsValue (d.whole ++ d.fraction) < 10 ^ 63 :=
    (Text.digitsValue_lt hdigits).trans_le (Nat.pow_le_pow_right (by decide) hlength)
  have hfinite := isFinite_ofScientific hvalue hfraction
  have hsigned : Quantity.isFinite (signed d.negative (OfScientific.ofScientific
      (Text.digitsValue (d.whole ++ d.fraction)) (-(d.fraction.length : Int) < 0)
      d.fraction.length : Float)) = true := by
    rw [signed]
    split_ifs
    · exact isFinite_neg hfinite
    · exact hfinite
  rw [hd, Decimal.finite?_text, Option.filter_some_pos hsigned]
  exact ⟨_, rfl⟩

end MusicPart.Binary64
