import Mathlib
import MusicPart.Proofs.Comparisons

/-!
# Signs of binary64 results

Sums and quotients of quantities that are not below zero are not below zero either. A difference
from a quantity that is not below zero can be, through what is taken away; rounding does not bring
it further down than the next power of two.
-/

namespace MusicPart.Binary64

open Float.Model
open Float.Model.UnpackedFloat

/-! ### Packing -/

theorem nonnegative_unpack_components (e : BitVec 11) (m : BitVec 52) :
    Nonnegative (UnpackedFloat.unpack Format.binary64
      (packComponents Format.binary64 .positive e m)) := by
  rw [UnpackedFloat.unpack]
  simp only [unpackMantissa_packComponents, unpackExponent_packComponents,
    unpackSign_packComponents, ofBitVec_toBitVec]
  split_ifs <;> trivial

theorem nonnegative_unpack_pack {u : UnpackedFloat} (h : Nonnegative u) :
    Nonnegative (Float.Model.pack u).unpack := by
  cases u with
  | notANumber => exact trivial
  | zero s =>
      rw [unpack_zero]
      trivial
  | infinity s =>
      cases s with
      | negative => exact h.elim
      | positive => exact nonnegative_unpack_components _ _
  | finite s m e hm =>
      cases s with
      | negative => exact h.elim
      | positive =>
          rw [unpack_pack, UnpackedFloat.pack]
          dsimp only
          split_ifs <;> exact nonnegative_unpack_components _ _

/-! ### Operations -/

theorem nonnegative_roundWithAccuracy (m : Nat) (e : Int) (a : Accuracy) :
    Nonnegative (roundWithAccuracy Format.binary64 .positive m e a) := by
  rw [roundWithAccuracy]
  dsimp only
  split_ifs <;> trivial

theorem nonnegative_normalize {m : Int} (h : 0 ≤ m) (e : Int) :
    Nonnegative (UnpackedFloat.normalize Format.binary64 m e .positive) := by
  rw [UnpackedFloat.normalize]
  split
  · rename_i hlt
    exact absurd (compare_lt_iff_lt.mp hlt) (not_lt.mpr h)
  · trivial
  · exact nonnegative_roundWithAccuracy _ _ _

theorem nonnegative_add {u v : UnpackedFloat} (hu : Nonnegative u) (hv : Nonnegative v) :
    Nonnegative (UnpackedFloat.add Format.binary64 u v) := by
  cases u with
  | notANumber => trivial
  | infinity s =>
      cases s with
      | negative => exact hu.elim
      | positive =>
          cases v with
          | infinity t =>
              cases t with
              | negative => exact hv.elim
              | positive => trivial
          | _ => trivial
  | zero s =>
      cases v with
      | zero t => cases s <;> cases t <;> trivial
      | _ => exact hv
  | finite s m e hm =>
      cases s with
      | negative => exact hu.elim
      | positive =>
          cases v with
          | finite t n f hn =>
              cases t with
              | negative => exact hv.elim
              | positive =>
                  exact nonnegative_normalize
                    (Int.add_nonneg (Int.natCast_nonneg _) (Int.natCast_nonneg _)) _
          | zero t => trivial
          | _ => exact hv

theorem nonnegative_div {u v : UnpackedFloat} (hu : Nonnegative u) (hv : Nonnegative v)
    (hzero : ∀ s, v ≠ .zero s) : Nonnegative (UnpackedFloat.div Format.binary64 u v) := by
  cases v with
  | notANumber => cases u <;> trivial
  | zero t => exact absurd rfl (hzero t)
  | infinity t =>
      cases u <;> trivial
  | finite t n f hn =>
      cases t with
      | negative => exact hv.elim
      | positive =>
          cases u with
          | notANumber => trivial
          | zero s => trivial
          | infinity s =>
              cases s with
              | negative => exact hu.elim
              | positive => trivial
          | finite s m e hm =>
              cases s with
              | negative => exact hu.elim
              | positive => exact nonnegative_roundWithAccuracy _ _ _

variable {x y : Float}

theorem not_add_lt_zero (hx : ¬x < 0.0) (hy : ¬y < 0.0) : ¬x + y < 0.0 := by
  rw [not_lt_zero_iff] at hx hy ⊢
  exact nonnegative_unpack_pack (nonnegative_add hx hy)

theorem not_div_lt_zero (hx : ¬x < 0.0) (hy : ¬y < 0.0) (hzero : (y == 0.0) = false) :
    ¬x / y < 0.0 := by
  rw [not_lt_zero_iff] at hx hy ⊢
  refine nonnegative_unpack_pack (nonnegative_div hx hy fun s hs => ?_)
  have heq : (y == 0.0) = true := beq_zero_iff.mpr ⟨s, hs⟩
  rw [hzero] at heq
  exact Bool.noConfusion heq

/-! ### Whole numbers -/

theorem nonnegative_ofScientific (m : Nat) (e : Int) :
    Nonnegative (UnpackedFloat.ofScientific Format.binary64 m e) := by
  rw [UnpackedFloat.ofScientific]
  split_ifs
  · trivial
  · trivial
  · trivial
  · exact nonnegative_roundWithAccuracy _ _ _
  · exact nonnegative_roundWithAccuracy _ _ _

theorem not_ofInt_lt_zero {n : Int} (h : 0 ≤ n) : ¬(Quantity.ofInt n : Float) < 0.0 := by
  obtain ⟨k, rfl⟩ := Int.eq_ofNat_of_zero_le h
  rw [not_lt_zero_iff]
  change Nonnegative (unpacked (Float.ofScientific k false 0))
  by_cases hk : k < 2 ^ 53
  · have hwhole : Float.ofScientific k false 0 = whole .positive k := ofScientific_eq hk
    rw [hwhole, unpacked, unpack_whole hk, unpackedWhole]
    split_ifs <;> trivial
  · rw [Float.ofScientific, dif_neg fun h => hk h.1]
    exact nonnegative_unpack_pack (nonnegative_ofScientific k _)

/-! ### Differences -/

/-- Not below zero, or below it with an exponent that is not above `k`. -/
def Shallow (k : Int) : UnpackedFloat → Prop
  | .infinity .negative => False
  | .finite .negative _ e _ => e ≤ k
  | _ => True

variable {k : Int}

theorem Nonnegative.shallow {u : UnpackedFloat} (h : Nonnegative u) : Shallow k u := by
  cases u with
  | notANumber => trivial
  | zero s => trivial
  | infinity s => cases s <;> first | exact h.elim | trivial
  | finite s m e hm => cases s <;> first | exact h.elim | trivial

theorem Shallow.mono {j : Int} (hjk : j ≤ k) {u : UnpackedFloat} (h : Shallow j u) :
    Shallow k u := by
  cases u with
  | notANumber => trivial
  | zero s => trivial
  | infinity s => cases s <;> first | exact h.elim | trivial
  | finite s m e hm =>
      cases s with
      | negative => exact le_trans h hjk
      | positive => trivial

theorem shallow_unpack_components {b : Nat} (hb : b < 2047) (hk : -1074 ≤ k)
    (hbk : (b : Int) - 1075 ≤ k) (m : BitVec 52) :
    Shallow k (UnpackedFloat.unpack Format.binary64
      (packComponents Format.binary64 .negative (BitVec.ofNat 11 b) m)) := by
  have hexp : (BitVec.ofNat 11 b).toNat = b := by
    rw [BitVec.toNat_ofNat, Nat.mod_eq_of_lt (by omega)]
  have hones : BitVec.ofNat 11 b ≠ -1#11 := by
    intro h
    have := congrArg BitVec.toNat h
    rw [hexp] at this
    simp at this
    omega
  rw [UnpackedFloat.unpack]
  simp only [unpackMantissa_packComponents, unpackExponent_packComponents,
    unpackSign_packComponents, ofBitVec_toBitVec, hones, if_false]
  split_ifs with hzero hempty
  · trivial
  · change ((BitVec.ofNat 11 b).toNat : Int) - (1023 + 52) + 1 ≤ k
    have hb : b = 0 := hexp.symm.trans (congrArg BitVec.toNat hzero)
    rw [hexp]
    omega
  · change ((BitVec.ofNat 11 b).toNat : Int) - (1023 + 52) ≤ k
    rw [hexp]
    omega

theorem shallow_unpack_pack (hlow : -1074 ≤ k) (hhigh : k ≤ 900) {u : UnpackedFloat}
    (h : Shallow k u) : Shallow k (Float.Model.pack u).unpack := by
  cases u with
  | notANumber => exact trivial
  | zero s => exact (nonnegative_unpack_pack (u := .zero s) trivial).shallow
  | infinity s =>
      cases s with
      | negative => exact h.elim
      | positive => exact (nonnegative_unpack_pack (u := .infinity .positive) trivial).shallow
  | finite s m e hm =>
      cases s with
      | positive =>
          exact (nonnegative_unpack_pack (u := .finite .positive m e hm) trivial).shallow
      | negative =>
          have hexp : e ≤ k := h
          have hbiased : (e + (Format.binary64.exponentBias : Int) + ((52 : Nat) : Int)).toNat =
              (e + 1075).toNat := by
            change (e + 1023 + 52).toNat = _
            omega
          rw [unpack_pack, UnpackedFloat.pack]
          simp only [hbiased]
          rw [if_neg (by change ¬2048 ≤ _; omega)]
          split_ifs
          · exact shallow_unpack_components (by omega) hlow (by omega) _
          · exact shallow_unpack_components (b := 0) (by omega) hlow (by omega) _

theorem shiftRight_mantissa (em : ExtendedMantissa) (j : Nat) :
    (em >>> j).mantissa = em.mantissa / 2 ^ j := by
  change (j.repeat ExtendedMantissa.shiftRightOne em).mantissa = _
  induction j with
  | zero => simp [Nat.repeat]
  | succ j ih =>
      rw [Nat.repeat, pow_succ, ← Nat.div_div_eq_div_mul, ← ih]
      rfl

theorem shiftToTargetExponent_exponent (m : Nat) (e : Int) (a : Accuracy) :
    (shiftToTargetExponent Format.binary64 m e a).2 = max e (max (m.log2 + e - 52) (-1074)) := by
  rw [shiftToTargetExponent, targetExponent_eq, shiftToExponent]
  dsimp only
  omega

/-- Rounding leaves the exponent where the mantissa needs it, or one above. -/
theorem shallow_roundWithAccuracy (s : Sign) {m : Nat} (hm : 0 < m) {e : Int}
    (he : e ≤ max (m.log2 + e - 52) (-1074)) :
    Shallow (max (m.log2 + e - 52) (-1074) + 1)
      (roundWithAccuracy Format.binary64 s m e .exact) := by
  obtain ⟨t, ht⟩ : ∃ t : Int, t = max (m.log2 + e - 52) (-1074) := ⟨_, rfl⟩
  have hexponent : (shiftToTargetExponent Format.binary64 m e .exact).2 = t := by
    rw [shiftToTargetExponent_exponent]
    omega
  have hmantissa : (shiftToTargetExponent Format.binary64 m e .exact).1.mantissa < 2 ^ 53 := by
    have hshift : (shiftToTargetExponent Format.binary64 m e .exact).1.mantissa =
        m / 2 ^ (t - e).toNat := by
      rw [shiftToTargetExponent, targetExponent_eq, shiftToExponent, ← ht]
      exact shiftRight_mantissa _ _
    rw [hshift, Nat.div_lt_iff_lt_mul (by positivity), ← pow_add]
    refine ((Nat.log2_lt hm.ne').mp (Nat.lt_succ_self _)).trans_le ?_
    exact Nat.pow_le_pow_right (by decide) (by omega)
  have hrounded := roundedMantissa_le (shiftToTargetExponent Format.binary64 m e .exact).1
  have hlog : (shiftToTargetExponent Format.binary64 m e .exact).1.roundedMantissa.log2 ≤ 53 := by
    rcases Nat.eq_zero_or_pos (shiftToTargetExponent Format.binary64 m e .exact).1.roundedMantissa
      with hzero | hpos
    · rw [hzero]
      decide
    · exact Nat.lt_succ_iff.mp ((Nat.log2_lt hpos.ne').mpr (by omega))
  rw [roundWithAccuracy]
  dsimp only
  split_ifs
  · trivial
  · cases s with
    | positive => trivial
    | negative =>
        change (shiftToTargetExponent Format.binary64 _ _ _).2 ≤ _
        rw [shiftToTargetExponent_exponent, hexponent, ← ht]
        omega

theorem shallow_round (s : Sign) {m : Nat} (hm : 0 < m) (e : Int) :
    Shallow (max (m.log2 + e - 52) (-1074) + 1) (UnpackedFloat.round Format.binary64 s m e) := by
  rw [UnpackedFloat.round, targetExponent_eq, decreaseExponent]
  obtain ⟨j, hj⟩ : ∃ j : Nat, j = (e - max ((m.log2 : Int) + e - 52) (-1074)).toNat := ⟨_, rfl⟩
  rw [← hj]
  dsimp only
  rw [Nat.shiftLeft_eq]
  have hlog := log2_mul_pow hm j
  have hround := shallow_roundWithAccuracy s (m := m * 2 ^ j) (by positivity) (e := e - j)
    (by rw [hlog]; omega)
  rw [hlog] at hround
  exact hround.mono (by omega)

/-- What is taken away from a quantity that is not below zero brings it down by no more than it
amounts to, and rounding by no more than one bit. -/
theorem shallow_sub {u : UnpackedFloat} (hu : Nonnegative u) {n : Nat} {f : Int} (hn : 0 < n)
    (hlog : n.log2 = 52) (hf : -1074 ≤ f) :
    Shallow (f + 1) (UnpackedFloat.sub Format.binary64 u (.finite .positive n f hn)) := by
  cases u with
  | notANumber => trivial
  | infinity s =>
      cases s with
      | negative => exact hu.elim
      | positive => trivial
  | zero s => exact Int.le_add_one le_rfl
  | finite s m e hm =>
      cases s with
      | negative => exact hu.elim
      | positive =>
          rw [UnpackedFloat.sub]
          dsimp only
          rw [decreaseExponent, decreaseExponent, UnpackedFloat.normalize, Nat.shiftLeft_eq,
            Nat.shiftLeft_eq]
          split
          · rename_i hlt
            obtain ⟨j, hj⟩ : ∃ j : Nat, j = (f - min e f).toNat := ⟨_, rfl⟩
            obtain ⟨i, hi⟩ : ∃ i : Nat, i = (e - min e f).toNat := ⟨_, rfl⟩
            rw [← hj, ← hi] at hlt ⊢
            have hneg : ((m * 2 ^ i : Nat) : Int) - ((n * 2 ^ j : Nat) : Int) < 0 :=
              compare_lt_iff_lt.mp hlt
            change Shallow (f + 1) (UnpackedFloat.round Format.binary64 .negative
              (-(((m * 2 ^ i : Nat) : Int) - ((n * 2 ^ j : Nat) : Int))).toNat (min e f))
            obtain ⟨d, hd⟩ : ∃ d : Nat,
                d = (-(((m * 2 ^ i : Nat) : Int) - ((n * 2 ^ j : Nat) : Int))).toNat := ⟨_, rfl⟩
            rw [← hd]
            have hpos : 0 < d := by omega
            have hle : d ≤ n * 2 ^ j := by omega
            have hlog : d.log2 ≤ 52 + j := by
              rw [← hlog, ← log2_mul_pow hn j]
              exact (Nat.le_log2 (by positivity)).mpr ((Nat.log2_self_le hpos.ne').trans hle)
            exact (shallow_round .negative hpos (min e f)).mono (by omega)
          · trivial
          · exact (nonnegative_roundWithAccuracy _ _ _).shallow

/-! ### Rounding to whole numbers -/

theorem neg_one_lt_of_shallow (h : Shallow (-54) (unpacked x)) {r : Rat}
    (hr : Quantity.value? x = some r) : -1 < r := by
  obtain ⟨hfinite, rfl⟩ := value?_eq_some.mp hr
  cases hu : unpacked x with
  | notANumber => simp [hu, UnpackedFloat.isFinite] at hfinite
  | infinity s => simp [hu, UnpackedFloat.isFinite] at hfinite
  | zero s => norm_num [magnitude]
  | finite s m e hm =>
      cases s with
      | positive =>
          rw [magnitude_positive]
          linarith [magnitude_pos (e := e) hm]
      | negative =>
          have he : e ≤ -54 := by
            rw [hu] at h
            exact h
          have hmantissa : (m : Rat) < 2 ^ 53 := by exact_mod_cast (canonical_unpacked hu).lt
          rw [magnitude_negative, neg_lt_neg_iff]
          calc (m : Rat) * 2 ^ e ≤ m * 2 ^ (-54 : Int) := by
                gcongr
                norm_num
            _ < 2 ^ 53 * 2 ^ (-54 : Int) := by gcongr
            _ < 1 := by norm_num

theorem Shallow.nonnegative_of_not_isFinite {u : UnpackedFloat} (h : Shallow k u)
    (hu : u.isFinite = false) : Nonnegative u := by
  cases u with
  | notANumber => trivial
  | infinity s => cases s <;> first | exact h.elim | trivial
  | zero s => trivial
  | finite s m e hm => exact Bool.noConfusion hu

theorem not_mapWhole_lt_zero {f : Rat → Int} (h : Shallow k (unpacked x))
    (hf : ∀ r, Quantity.value? x = some r → 0 ≤ f r) : ¬Quantity.mapWhole f x < 0.0 := by
  rw [Quantity.mapWhole]
  cases hx : Quantity.value? x with
  | some r => exact not_ofInt_lt_zero (hf r hx)
  | none =>
      refine not_lt_zero_iff.mpr (h.nonnegative_of_not_isFinite ?_)
      rw [← Bool.not_eq_true, ← isFinite_iff, Quantity.isFinite, hx]
      exact Bool.false_ne_true

theorem not_ceil_lt_zero (h : Shallow (-54) (unpacked x)) : ¬Quantity.ceil x < 0.0 := by
  refine not_mapWhole_lt_zero h fun r hr => ?_
  have hceil : (-1 : Rat) < r.ceil := (neg_one_lt_of_shallow h hr).trans_le Rat.le_ceil
  have hceil : -1 < r.ceil := by exact_mod_cast hceil
  omega

theorem not_floor_lt_zero (h : ¬x < 0.0) : ¬Quantity.floor x < 0.0 := by
  refine not_mapWhole_lt_zero (k := 0) (not_lt_zero_iff.mp h).shallow fun r hr => ?_
  rw [lt_iff_of_value? hr value?_zero, not_lt] at h
  have hfloor : (-1 : Rat) < r.floor := by linarith [Rat.lt_floor (x := r)]
  have hfloor : -1 < r.floor := by exact_mod_cast hfloor
  omega

theorem not_abs_lt_zero (x : Float) : ¬Quantity.abs x < 0.0 := by
  rw [Quantity.abs]
  split
  · rename_i h
    exact not_neg_lt_zero h
  · rename_i h
    exact h

theorem unpacked_slack : ∃ h, unpacked 1e-9 = .finite .positive 4835703278458517 (-82) h := by
  have heq : (1e-9 : Float) =
      .ofModel (.pack (.finite .positive 4835703278458517 (-82) (by decide))) := by decide +kernel
  rw [heq]
  exact ⟨_, unpack_pack_normal .positive (by decide) (by decide +kernel) (by decide) (by decide)⟩

theorem shallow_sub_slack (h : ¬x < 0.0) : Shallow (-54) (unpacked (x - 1e-9)) := by
  obtain ⟨hpos, hslack⟩ := unpacked_slack
  change Shallow (-54) (Float.Model.pack (UnpackedFloat.sub Format.binary64 (unpacked x)
    (unpacked 1e-9))).unpack
  rw [hslack]
  refine shallow_unpack_pack (by decide) (by decide) ?_
  exact (shallow_sub (not_lt_zero_iff.mp h) hpos (by decide +kernel) (by decide)).mono (by decide)

end MusicPart.Binary64
