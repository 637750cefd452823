import Mathlib
import MusicPart.Proofs.Comparisons

/-!
# Rounding in binary64

A positive number is rounded to the nearest one whose mantissa has the bits of the format, and to
infinity if that one is too large. Rounding keeps the order of numbers.
-/

namespace MusicPart.Binary64

open Float.Model
open Float.Model.UnpackedFloat

/-! ### Nearest mantissas -/

theorem roundHalfEven_eq (x : Rat) : Quantity.roundHalfEven x =
    if x - ⌊x⌋ < 1 / 2 then ⌊x⌋ else if 1 / 2 < x - ⌊x⌋ then ⌊x⌋ + 1
      else if ⌊x⌋ % 2 = 0 then ⌊x⌋ else ⌊x⌋ + 1 := rfl

theorem floor_le_roundHalfEven (x : Rat) :
    ⌊x⌋ ≤ Quantity.roundHalfEven x ∧ Quantity.roundHalfEven x ≤ ⌊x⌋ + 1 := by
  rw [roundHalfEven_eq]
  split_ifs <;> omega

theorem roundHalfEven_mono {x y : Rat} (h : x ≤ y) :
    Quantity.roundHalfEven x ≤ Quantity.roundHalfEven y := by
  rcases (Int.floor_mono h).lt_or_eq with hlt | heq
  · exact (floor_le_roundHalfEven x).2.trans (hlt.trans_le (floor_le_roundHalfEven y).1)
  · rw [roundHalfEven_eq, roundHalfEven_eq, ← heq]
    split_ifs <;> first | omega | linarith

/-- A mantissa with its residual bits is short of a number by what the bits tell. -/
def Extends (em : ExtendedMantissa) (x : Rat) : Prop :=
  match em.roundBit, em.stickyBit with
  | false, false => x = em.mantissa
  | false, true => em.mantissa < x ∧ x < em.mantissa + 1 / 2
  | true, false => x = em.mantissa + 1 / 2
  | true, true => em.mantissa + 1 / 2 < x ∧ x < em.mantissa + 1

theorem Extends.shiftRightOne {em : ExtendedMantissa} {x : Rat} (h : Extends em x) :
    Extends em.shiftRightOne (x / 2) := by
  obtain ⟨m, round, sticky⟩ := em
  have hm : ((2 * (m / 2) + m % 2 : Nat) : Rat) = m := congrArg _ (Nat.div_add_mod m 2)
  push_cast at hm
  rcases Nat.mod_two_eq_zero_or_one m with hbit | hbit <;>
    cases round <;> cases sticky <;>
      simp [Extends, ExtendedMantissa.shiftRightOne, hbit] at h hm ⊢ <;>
        first | linarith | exact ⟨by linarith, by linarith⟩

theorem Extends.shiftRight {em : ExtendedMantissa} {x : Rat} (h : Extends em x) (k : Nat) :
    Extends (em >>> k) (x / 2 ^ k) := by
  change Extends (k.repeat ExtendedMantissa.shiftRightOne em) _
  induction k with
  | zero => simpa [Nat.repeat] using h
  | succ k ih =>
      rw [Nat.repeat, pow_succ, ← div_div]
      exact ih.shiftRightOne

theorem Extends.bounds {em : ExtendedMantissa} {x : Rat} (h : Extends em x) :
    (em.mantissa : Rat) ≤ x ∧ x < em.mantissa + 1 := by
  obtain ⟨m, round, sticky⟩ := em
  cases round <;> cases sticky <;> simp [Extends] at h ⊢ <;> exact ⟨by linarith, by linarith⟩

theorem mantissa_ofMantissaAndAccuracy (m : Nat) (a : Accuracy) :
    (ExtendedMantissa.ofMantissaAndAccuracy m a).mantissa = m := by
  cases a with
  | exact => rfl
  | inexact o => cases o <;> rfl

theorem extends_exact (m : Nat) : Extends (.ofMantissaAndAccuracy m .exact) m := rfl

theorem Extends.roundedMantissa_eq {em : ExtendedMantissa} {x : Rat} (h : Extends em x) :
    (em.roundedMantissa : Int) = Quantity.roundHalfEven x := by
  have hfloor : ⌊x⌋ = em.mantissa := Int.floor_eq_iff.mpr (by exact_mod_cast h.bounds)
  obtain ⟨m, round, sticky⟩ := em
  rw [roundHalfEven_eq, hfloor]
  cases round <;> cases sticky <;>
    simp only [Extends, ExtendedMantissa.roundedMantissa, ExtendedMantissa.accuracy,
      Accuracy.roundToNearestEven, Int.cast_natCast] at h ⊢ <;>
    split_ifs <;> first | omega | linarith

/-! ### Nearest numbers -/

/-- The exponent at which a number takes all bits of a mantissa. -/
def fullExponent (x : Rat) : Int := Int.log 2 x - 52

/-- The number nearest to a positive one that a mantissa can hold, whatever its exponent is. -/
def nearest (x : Rat) : Rat :=
  Quantity.roundHalfEven (x / 2 ^ fullExponent x) * 2 ^ fullExponent x

theorem full_mantissa {x : Rat} (h : 0 < x) :
    (2 : Rat) ^ 52 ≤ x / 2 ^ fullExponent x ∧ x / 2 ^ fullExponent x < 2 ^ 53 := by
  have hpow (k : Nat) : (2 : Rat) ^ k * 2 ^ fullExponent x = 2 ^ (Int.log 2 x + k - 52) := by
    rw [← zpow_natCast, ← zpow_add₀ (by norm_num), fullExponent]
    congr 1
    omega
  rw [le_div_iff₀ (by positivity), div_lt_iff₀ (by positivity), hpow, hpow]
  have hlow := Int.zpow_log_le_self (b := 2) (by norm_num) h
  have hhigh := Int.lt_zpow_succ_log_self (b := 2) (by norm_num) x
  rw [show Int.log 2 x + (52 : Nat) - 52 = Int.log 2 x by omega,
    show Int.log 2 x + (53 : Nat) - 52 = Int.log 2 x + 1 by omega]
  exact ⟨by exact_mod_cast hlow, by exact_mod_cast hhigh⟩

theorem roundHalfEven_full {x : Rat} (h : 0 < x) :
    2 ^ 52 ≤ Quantity.roundHalfEven (x / 2 ^ fullExponent x) ∧
      Quantity.roundHalfEven (x / 2 ^ fullExponent x) ≤ 2 ^ 53 := by
  obtain ⟨hlow, hhigh⟩ := full_mantissa h
  constructor
  · rw [← SixPlaces.roundHalfEven_intCast (2 ^ 52)]
    exact roundHalfEven_mono (by exact_mod_cast hlow)
  · rw [← SixPlaces.roundHalfEven_intCast (2 ^ 53)]
    exact roundHalfEven_mono (by exact_mod_cast hhigh.le)

theorem nearest_mono {x y : Rat} (hx : 0 < x) (h : x ≤ y) : nearest x ≤ nearest y := by
  have hy : 0 < y := hx.trans_le h
  have hexponent : fullExponent x ≤ fullExponent y :=
    Int.sub_le_sub_right (Int.log_mono_right hx h) 52
  rcases hexponent.lt_or_eq with hlt | heq
  · -- A number of a higher exponent is beyond all that the lower one can hold.
    obtain ⟨-, hhigh⟩ := roundHalfEven_full hx
    obtain ⟨hlow, -⟩ := roundHalfEven_full hy
    calc nearest x ≤ ((2 ^ 53 : Int) : Rat) * 2 ^ fullExponent x := by
          rw [nearest]
          gcongr
      _ = ((2 ^ 52 : Int) : Rat) * 2 ^ (fullExponent x + 1) := by
          rw [zpow_add₀ (by norm_num)]
          push_cast
          ring
      _ ≤ ((2 ^ 52 : Int) : Rat) * 2 ^ fullExponent y := by
          gcongr
          · norm_num
          · omega
      _ ≤ nearest y := by
          rw [nearest]
          gcongr
  · rw [nearest, nearest, ← heq]
    gcongr
    exact roundHalfEven_mono (by gcongr)

theorem nearest_one : nearest 1 = 1 := by
  have hexponent : fullExponent 1 = -52 := by rw [fullExponent, Int.log_one_right]; rfl
  rw [nearest, hexponent, show (1 : Rat) / 2 ^ (-52 : Int) = ((2 ^ 52 : Int) : Rat) by norm_num,
    SixPlaces.roundHalfEven_intCast]
  norm_num

/-- The bits after a mantissa do not change how large a number is. -/
theorem log_of_mantissa {m : Nat} {x : Rat} (hm : 0 < m) (hlow : m ≤ x) (hhigh : x < m + 1)
    (e : Int) : Int.log 2 (x * 2 ^ e) = m.log2 + e := by
  obtain ⟨hlog, hlog'⟩ := (Nat.log2_eq_iff hm.ne').mp rfl
  have hpos : 0 < x * 2 ^ e :=
    mul_pos ((Nat.cast_pos.mpr hm).trans_le hlow) (zpow_pos (by norm_num) e)
  refine le_antisymm ?_ ?_
  · refine Int.lt_add_one_iff.mp ((Int.lt_zpow_iff_log_lt (by norm_num) hpos).mp ?_)
    have hnext : (m : Rat) + 1 ≤ ((2 ^ (m.log2 + 1) : Nat) : Rat) := by exact_mod_cast hlog'
    calc x * 2 ^ e < ((2 ^ (m.log2 + 1) : Nat) : Rat) * 2 ^ e := by
          gcongr
          exact hhigh.trans_le hnext
      _ = ((2 : Nat) : Rat) ^ ((m.log2 : Int) + e + 1) := by
          push_cast
          rw [← zpow_natCast, ← zpow_add₀ (by norm_num)]
          congr 1
          push_cast
          ring
  · refine (Int.zpow_le_iff_le_log (by norm_num) hpos).mp ?_
    have hbelow : ((2 ^ m.log2 : Nat) : Rat) ≤ m := Nat.cast_le.mpr hlog
    calc ((2 : Nat) : Rat) ^ ((m.log2 : Int) + e) = ((2 ^ m.log2 : Nat) : Rat) * 2 ^ e := by
          push_cast
          rw [zpow_add₀ (by norm_num), zpow_natCast]
      _ ≤ x * 2 ^ e := by
          gcongr
          exact hbelow.trans hlow

theorem log_magnitude {m : Nat} (hm : 0 < m) (e : Int) :
    Int.log 2 ((m : Rat) * 2 ^ e) = m.log2 + e :=
  log_of_mantissa hm le_rfl (lt_add_one _) e

/-- Rounding finds the nearest number, and all bits of its mantissa are in use. What a mantissa is
short of the number is told by its accuracy. -/
theorem roundWithAccuracy_nearest (s : Sign) {m : Nat} {e : Int} {a : Accuracy} {x : Rat}
    (hm : 0 < m) (hlog : 52 ≤ m.log2) (he : -1074 ≤ m.log2 + e - 52)
    (hx : Extends (.ofMantissaAndAccuracy m a) x) :
    ∃ (n : Nat) (f : Int) (hn : 0 < n),
      roundWithAccuracy Format.binary64 s m e a = .finite s n f hn ∧ n.log2 = 52 ∧
        -1074 ≤ f ∧ (n : Rat) * 2 ^ f = nearest (x * 2 ^ e) := by
  obtain ⟨t, ht⟩ : ∃ t : Int, t = m.log2 + e - 52 := ⟨_, rfl⟩
  obtain ⟨r, hr⟩ : ∃ r, r = (ExtendedMantissa.ofMantissaAndAccuracy m a >>>
    (m.log2 - 52)).roundedMantissa := ⟨_, rfl⟩
  obtain ⟨hlow, hhigh⟩ := mantissa_ofMantissaAndAccuracy m a ▸ hx.bounds
  have hexponent : fullExponent (x * 2 ^ e) = t := by
    rw [fullExponent, log_of_mantissa hm hlow hhigh, ht]
  have hquotient : x / 2 ^ (m.log2 - 52) = (x * 2 ^ e) / 2 ^ t := by
    rw [ht, div_eq_div_iff (by positivity) (by positivity), mul_assoc, ← zpow_natCast,
      ← zpow_add₀ (by norm_num)]
    congr 2
    omega
  have hrounded : (r : Int) = Quantity.roundHalfEven ((x * 2 ^ e) / 2 ^ t) := by
    rw [hr, ← hquotient]
    exact (hx.shiftRight _).roundedMantissa_eq
  have hnearest : nearest (x * 2 ^ e) = (r : Rat) * 2 ^ t := by
    rw [nearest, hexponent, ← hrounded, Int.cast_natCast]
  have hbounds := roundHalfEven_full (x := x * 2 ^ e)
    (mul_pos ((Nat.cast_pos.mpr hm).trans_le hlow) (zpow_pos (by norm_num) e))
  rw [hexponent, ← hrounded] at hbounds
  have hfirst : shiftToTargetExponent Format.binary64 m e a =
      (ExtendedMantissa.ofMantissaAndAccuracy m a >>> (m.log2 - 52), t) := by
    have hshift : (t - e).toNat = m.log2 - 52 := by omega
    rw [shiftToTargetExponent, targetExponent_eq, max_eq_left he, ← ht, shiftToExponent, hshift]
    exact congrArg (Prod.mk _) (by omega)
  -- Rounding up can fill one bit more than there are, and that bit is shifted out again.
  obtain ⟨n, f, hlog, hf, hvalue, hfit⟩ : ∃ (n : Nat) (f : Int), n.log2 = 52 ∧ -1074 ≤ f ∧
      (n : Rat) * 2 ^ f = r * 2 ^ t ∧ shiftToTargetExponent Format.binary64 r t .exact =
        (ExtendedMantissa.ofMantissaAndAccuracy n .exact, f) := by
    rcases (show r ≤ 2 ^ 53 by omega).lt_or_eq with hlt | rfl
    · have hrlog : r.log2 = 52 := (Nat.log2_eq_iff (by omega)).mpr ⟨by omega, hlt⟩
      refine ⟨r, t, hrlog, by omega, rfl, ?_⟩
      simpa using shiftToTargetExponent_fitting (e := t) (by omega) hrlog (by omega) 0
    · have hfull : (2 ^ 52).log2 = 52 := by decide +kernel
      refine ⟨2 ^ 52, t + 1, hfull, by omega, ?_, ?_⟩
      · rw [zpow_add₀ (by norm_num)]
        push_cast
        ring
      · rw [← shiftToTargetExponent_fitting (by norm_num) hfull (by omega) 1]
        congr 1
        omega
  have hn : 0 < n := Nat.pos_of_ne_zero fun h => by rw [h] at hlog; exact absurd hlog (by decide)
  refine ⟨n, f, hn, ?_, hlog, hf, hvalue.trans hnearest.symm⟩
  have hmantissa : (ExtendedMantissa.ofMantissaAndAccuracy n .exact).mantissa = n := rfl
  rw [roundWithAccuracy]
  simp only [hfirst, ← hr, hfit, hmantissa, dif_neg hn.ne']

/-! ### Rounding numbers -/

/-- What a positive number is rounded to: the nearest one, or infinity where that has too large an
exponent. -/
inductive RoundsTo (x : Rat) : UnpackedFloat → Prop
  | finite {n : Nat} {f : Int} (hn : 0 < n) (hfull : n.log2 = 52) (hlow : -1074 ≤ f)
      (hhigh : f ≤ 971) (hvalue : (n : Rat) * 2 ^ f = nearest x) :
      RoundsTo x (.finite .positive n f hn)
  | infinity {n : Nat} {f : Int} (hn : 0 < n) (hfull : n.log2 = 52) (hhigh : 971 < f)
      (hvalue : (n : Rat) * 2 ^ f = nearest x) : RoundsTo x (.infinity .positive)

/-- Of two numbers whose mantissas take all their bits the one with the larger exponent is larger. -/
theorem le_or_of_magnitude_le {m n : Nat} {e f : Int} (hm : 0 < m) (hmfull : m.log2 = 52)
    (hn : 0 < n) (hnfull : n.log2 = 52) (h : (m : Rat) * 2 ^ e ≤ n * 2 ^ f) :
    e < f ∨ e = f ∧ m ≤ n := by
  obtain ⟨hmlow, hmhigh⟩ := (Nat.log2_eq_iff hm.ne').mp hmfull
  obtain ⟨hnlow, hnhigh⟩ := (Nat.log2_eq_iff hn.ne').mp hnfull
  rcases lt_trichotomy e f with hlt | rfl | hgt
  · exact Or.inl hlt
  · refine Or.inr ⟨rfl, ?_⟩
    exact_mod_cast le_of_mul_le_mul_right h (zpow_pos (by norm_num) e)
  · refine absurd h (not_le.mpr ?_)
    calc (n : Rat) * 2 ^ f < (2 ^ 53 : Nat) * 2 ^ f := by gcongr
      _ = (2 ^ 52 : Nat) * 2 ^ (f + 1) := by
          rw [zpow_add₀ (by norm_num)]
          push_cast
          ring
      _ ≤ (2 ^ 52 : Nat) * 2 ^ e := by
          gcongr
          · norm_num
          · omega
      _ ≤ m * 2 ^ e := by gcongr

theorem RoundsTo.rank_mono {x y : Rat} {u v : UnpackedFloat} (hu : RoundsTo x u)
    (hv : RoundsTo y v) (hx : 0 < x) (h : x ≤ y) : rank u ≤ rank v := by
  have hnearest := nearest_mono hx h
  cases hu with
  | finite hm hmfull _ hmhigh hmvalue =>
      cases hv with
      | finite hn hnfull _ _ hnvalue =>
          rw [← hmvalue, ← hnvalue] at hnearest
          rcases le_or_of_magnitude_le hm hmfull hn hnfull hnearest with hlt | ⟨rfl, hle⟩
          · simp [rank, Prod.Lex.toLex_le_toLex, hlt]
          · simp [rank, Prod.Lex.toLex_le_toLex, hle]
      | infinity => simp [rank, Prod.Lex.toLex_le_toLex]
  | infinity hm hmfull hmhigh hmvalue =>
      cases hv with
      | finite hn hnfull _ hnhigh hnvalue =>
          rw [← hmvalue, ← hnvalue] at hnearest
          rcases le_or_of_magnitude_le hm hmfull hn hnfull hnearest with hlt | ⟨heq, -⟩ <;> omega
      | infinity => exact le_rfl

theorem unpack_pack_large (s : Sign) {m : Nat} {e : Int} (hm : 0 < m) (he : 971 < e) :
    (Float.Model.pack (.finite s m e hm)).unpack = .infinity s := by
  have hlarge : 2 ^ Format.binary64.exponentBits ≤
      (e + (Format.binary64.exponentBias : Int) + ((52 : Nat) : Int)).toNat + 1 := by
    change 2048 ≤ (e + 1023 + 52).toNat + 1
    omega
  rw [unpack_pack, UnpackedFloat.pack]
  dsimp only
  rw [if_pos hlarge]
  cases s <;> rfl

theorem roundsTo_pack {m : Nat} {e : Int} {a : Accuracy} {x : Rat} (hm : 0 < m)
    (hlog : 52 ≤ m.log2) (he : -1074 ≤ m.log2 + e - 52)
    (hx : Extends (.ofMantissaAndAccuracy m a) x) : RoundsTo (x * 2 ^ e) (Float.Model.pack
      (roundWithAccuracy Format.binary64 .positive m e a)).unpack := by
  obtain ⟨n, f, hn, hround, hfull, hlow, hvalue⟩ :=
    roundWithAccuracy_nearest .positive hm hlog he hx
  rw [hround]
  rcases le_or_gt f 971 with hhigh | hhigh
  · rw [unpack_pack_normal .positive hn hfull hlow hhigh]
    exact .finite hn hfull hlow hhigh hvalue
  · rw [unpack_pack_large .positive hn hhigh]
    exact .infinity hn hfull hhigh hvalue

end MusicPart.Binary64
