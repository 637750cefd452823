import Mathlib
import MusicPart.Proofs.Laws

/-!
# Comparing binary64 quantities

Of two finite quantities the one with the smaller value is below the other. What is between two
finite quantities is finite, so what a clamp lets through has a value within its bounds.
-/

namespace MusicPart.Binary64

open Float.Model
open Float.Model.UnpackedFloat

/-! ### Unpacked quantities -/

/-- The mantissa and the exponent of a quantity that was unpacked: all bits of the mantissa are in
use, or the exponent is the least one. -/
structure Canonical (m : Nat) (e : Int) : Prop where
  lt : m < 2 ^ 53
  least : -1074 ≤ e
  full : -1074 < e → 2 ^ 52 ≤ m

theorem canonical_unpacked {x : Float} {s : Sign} {m : Nat} {e : Int} {hm : 0 < m}
    (h : unpacked x = .finite s m e hm) : Canonical m e := by
  change UnpackedFloat.unpack Format.binary64 x.toModel.toBits.toBitVec = _ at h
  rw [UnpackedFloat.unpack] at h
  dsimp only at h
  have hbias : (Format.binary64.exponentBias : Int) = 1023 := rfl
  split_ifs at h with hones hnan hzero hempty
  · cases h
    have hlt := (@unpackMantissa Format.binary64 x.toModel.toBits.toBitVec).isLt
    rw [hzero, hbias]
    exact ⟨hlt.trans (by decide), by decide, fun hlow => absurd hlow (by decide)⟩
  · cases h
    have hpos : (@unpackExponent Format.binary64 x.toModel.toBits.toBitVec).toNat ≠ 0 :=
      fun heq => hzero (BitVec.eq_of_toNat_eq heq)
    have hlt := (@unpackMantissa Format.binary64 x.toModel.toBits.toBitVec).isLt
    rw [hbias, BitVec.toNat_append, ← Nat.shiftLeft_add_eq_or_of_lt hlt, Nat.shiftLeft_eq]
    refine ⟨?_, ?_, fun _ => ?_⟩
    · change 1 * 2 ^ 52 + _ < 2 ^ 53
      have hlt : _ < 2 ^ 52 := hlt
      omega
    · omega
    · change 2 ^ 52 ≤ 1 * 2 ^ 52 + _
      omega

theorem Canonical.magnitude_lt {m n : Nat} {e f : Int} (hm : Canonical m e) (hn : Canonical n f)
    (h : e < f ∨ e = f ∧ m < n) : (m : Rat) * 2 ^ e < n * 2 ^ f := by
  rcases h with h | ⟨rfl, h⟩
  · have hfull : ((2 ^ 52 : Nat) : Rat) ≤ n := Nat.cast_le.mpr (hn.full (hm.least.trans_lt h))
    have hlt : (m : Rat) < (2 ^ 53 : Nat) := Nat.cast_lt.mpr hm.lt
    calc (m : Rat) * 2 ^ e < (2 ^ 53 : Nat) * 2 ^ e := by gcongr
      _ = (2 ^ 52 : Nat) * 2 ^ (e + 1) := by
          rw [zpow_add₀ (by norm_num)]
          push_cast
          ring
      _ ≤ (2 ^ 52 : Nat) * 2 ^ f := by
          gcongr
          · norm_num
          · omega
      _ ≤ n * 2 ^ f := by gcongr
  · gcongr

/-! ### Values -/

/-- The value that a finite unpacked quantity has. -/
def magnitude : UnpackedFloat → Rat
  | .finite s m e _ => s.apply m * (2 : Rat) ^ e
  | _ => 0

theorem value?_eq_some {x : Float} {r : Rat} : Quantity.value? x = some r ↔
    (unpacked x).isFinite = true ∧ magnitude (unpacked x) = r := by
  change value? x = some r ↔ _
  rw [value?, unpacked]
  cases x.toModel.unpack <;> simp [UnpackedFloat.isFinite, magnitude]

theorem magnitude_pos {m : Nat} {e : Int} (hm : 0 < m) : 0 < (m : Rat) * 2 ^ e :=
  mul_pos (Nat.cast_pos.mpr hm) (zpow_pos (by norm_num) e)

theorem magnitude_negative (m : Nat) (e : Int) (hm : 0 < m) :
    magnitude (.finite .negative m e hm) = -((m : Rat) * 2 ^ e) := by
  simp [magnitude, Sign.apply]

theorem magnitude_positive (m : Nat) (e : Int) (hm : 0 < m) :
    magnitude (.finite .positive m e hm) = (m : Rat) * 2 ^ e := by
  simp [magnitude, Sign.apply]

/-- Of canonical quantities with one sign the exponents are compared first. -/
theorem magnitude_lt_magnitude {x y : Float} (hx : (unpacked x).isFinite = true)
    (hy : (unpacked y).isFinite = true) (h : rank (unpacked x) < rank (unpacked y)) :
    magnitude (unpacked x) < magnitude (unpacked y) := by
  cases hux : unpacked x with
  | infinity s => simp [hux, UnpackedFloat.isFinite] at hx
  | notANumber => simp [hux, UnpackedFloat.isFinite] at hx
  | zero s =>
      cases huy : unpacked y with
      | infinity s => simp [huy, UnpackedFloat.isFinite] at hy
      | notANumber => simp [huy, UnpackedFloat.isFinite] at hy
      | zero t => simp [hux, huy, rank] at h
      | finite t n f hn =>
          cases t with
          | negative => simp [hux, huy, rank, Prod.Lex.toLex_lt_toLex] at h
          | positive =>
              rw [magnitude_positive]
              exact magnitude_pos hn
  | finite s m e hm =>
      have hcx := canonical_unpacked hux
      cases huy : unpacked y with
      | infinity s => simp [huy, UnpackedFloat.isFinite] at hy
      | notANumber => simp [huy, UnpackedFloat.isFinite] at hy
      | zero t =>
          cases s with
          | negative =>
              rw [magnitude_negative]
              exact neg_neg_of_pos (magnitude_pos hm)
          | positive => simp [hux, huy, rank, Prod.Lex.toLex_lt_toLex] at h
      | finite t n f hn =>
          have hcy := canonical_unpacked huy
          cases s with
          | negative =>
              rw [magnitude_negative]
              cases t with
              | negative =>
                  simp only [hux, huy, rank, Prod.Lex.toLex_lt_toLex, lt_self_iff_false, false_or,
                    true_and, neg_lt_neg_iff, neg_inj, Nat.cast_lt] at h
                  rw [magnitude_negative]
                  exact neg_lt_neg (hcy.magnitude_lt hcx (h.imp_right fun h => ⟨h.1.symm, h.2⟩))
              | positive =>
                  rw [magnitude_positive]
                  exact (neg_neg_of_pos (magnitude_pos hm)).trans (magnitude_pos hn)
          | positive =>
              rw [magnitude_positive]
              cases t with
              | negative => simp [hux, huy, rank, Prod.Lex.toLex_lt_toLex] at h
              | positive =>
                  simp only [hux, huy, rank, Prod.Lex.toLex_lt_toLex, lt_self_iff_false, false_or,
                    true_and, Nat.cast_lt] at h
                  rw [magnitude_positive]
                  exact hcx.magnitude_lt hcy h

theorem magnitude_eq_magnitude {a b : UnpackedFloat} (ha : a.isFinite = true)
    (hb : b.isFinite = true) (h : rank a = rank b) : magnitude a = magnitude b := by
  cases a with
  | infinity s => simp [UnpackedFloat.isFinite] at ha
  | notANumber => simp [UnpackedFloat.isFinite] at ha
  | zero s =>
      cases b with
      | infinity s => simp [UnpackedFloat.isFinite] at hb
      | notANumber => simp [UnpackedFloat.isFinite] at hb
      | zero t => rfl
      | finite t n f hn => cases t <;> simp [rank] at h
  | finite s m e hm =>
      cases b with
      | infinity s => simp [UnpackedFloat.isFinite] at hb
      | notANumber => simp [UnpackedFloat.isFinite] at hb
      | zero t => cases s <;> simp [rank] at h
      | finite t n f hn =>
          cases s <;> cases t <;> simp [rank] at h <;> simp [magnitude, h]

/-- Finite quantities are compared by their values. -/
theorem lt_iff_of_value? {x y : Float} {a b : Rat} (hx : Quantity.value? x = some a)
    (hy : Quantity.value? y = some b) : x < y ↔ a < b := by
  obtain ⟨hfx, rfl⟩ := value?_eq_some.mp hx
  obtain ⟨hfy, rfl⟩ := value?_eq_some.mp hy
  have hnumber {u : UnpackedFloat} (hu : u.isFinite = true) : u ≠ .notANumber := by
    rintro rfl
    exact Bool.noConfusion hu
  rw [lt_iff]
  constructor
  · rintro ⟨-, -, h⟩
    exact magnitude_lt_magnitude hfx hfy h
  · intro h
    refine ⟨hnumber hfx, hnumber hfy, ?_⟩
    rcases lt_trichotomy (rank (unpacked x)) (rank (unpacked y)) with hlt | heq | hgt
    · exact hlt
    · exact absurd (magnitude_eq_magnitude hfx hfy heq) h.ne
    · exact absurd (magnitude_lt_magnitude hfy hfx hgt) h.asymm

theorem le_iff {a b : Float} : a ≤ b ↔ unpacked a ≠ .notANumber ∧ unpacked b ≠ .notANumber ∧
    ¬rank (unpacked b) < rank (unpacked a) := by
  have hle : a ≤ b ↔ ((unpacked a).compare (unpacked b)).any (·.isLE) = true := by
    change decide (a.toModel ≤ b.toModel) = true ↔ _
    rw [decide_eq_true_eq]
    rfl
  rw [hle]
  by_cases ha : unpacked a = .notANumber
  · simp [ha, UnpackedFloat.compare]
  by_cases hb : unpacked b = .notANumber
  · cases hu : unpacked a <;> simp_all [UnpackedFloat.compare]
  rw [compare_eq_compare_rank ha hb, Option.any_some, Ordering.isLE_iff_ne_gt, Ne,
    compare_gt_iff_gt]
  exact ⟨fun h => ⟨ha, hb, h⟩, fun h => h.2.2⟩

/-! ### Negation -/

theorem unpack_packComponents_neg (s : Sign) (e : BitVec 11) (m : BitVec 52) :
    UnpackedFloat.unpack Format.binary64 (packComponents Format.binary64 (-s) e m) =
      (UnpackedFloat.unpack Format.binary64 (packComponents Format.binary64 s e m)).neg := by
  rw [UnpackedFloat.unpack, UnpackedFloat.unpack]
  simp only [unpackMantissa_packComponents, unpackExponent_packComponents,
    unpackSign_packComponents, ofBitVec_toBitVec]
  split_ifs <;> rfl

theorem unpack_pack_neg (u : UnpackedFloat) :
    (Float.Model.pack u.neg).unpack = (Float.Model.pack u).unpack.neg := by
  cases u with
  | notANumber => rfl
  | infinity s => exact unpack_packComponents_neg s _ _
  | zero s => exact unpack_packComponents_neg s _ _
  | finite s m e hm =>
      rw [unpack_pack, unpack_pack, UnpackedFloat.neg, UnpackedFloat.pack, UnpackedFloat.pack]
      dsimp only
      split_ifs <;> exact unpack_packComponents_neg s _ _

theorem unpacked_neg (x : Float) : unpacked (-x) = (unpacked x).neg := by
  change (Float.Model.pack (unpacked x).neg).unpack = _
  rw [unpack_pack_neg]
  exact congrArg (fun y => (unpacked y).neg) (ofModel_pack_unpacked x)

theorem value?_neg {x : Float} {r : Rat} (h : Quantity.value? x = some r) :
    Quantity.value? (-x) = some (-r) := by
  obtain ⟨hfinite, rfl⟩ := value?_eq_some.mp h
  refine value?_eq_some.mpr ?_
  rw [unpacked_neg]
  cases hu : unpacked x with
  | infinity s => simp [hu, UnpackedFloat.isFinite] at hfinite
  | notANumber => simp [hu, UnpackedFloat.isFinite] at hfinite
  | zero s => simp [UnpackedFloat.neg, UnpackedFloat.isFinite, magnitude]
  | finite s m e hm =>
      refine ⟨rfl, ?_⟩
      cases s
      · exact (magnitude_positive m e hm).trans
          ((neg_neg _).symm.trans (congrArg Neg.neg (magnitude_negative m e hm).symm))
      · exact (magnitude_negative m e hm).trans (congrArg Neg.neg (magnitude_positive m e hm).symm)

/-! ### Bounds -/

theorem rank_lt_infinity {u : UnpackedFloat} (h : u.isFinite = true) :
    rank (.infinity .negative) < rank u ∧ rank u < rank (.infinity .positive) := by
  cases u with
  | notANumber => exact Bool.noConfusion h
  | infinity s => exact Bool.noConfusion h
  | zero s => simp [rank, Prod.Lex.toLex_lt_toLex]
  | finite s m e hm => cases s <;> simp [rank, Prod.Lex.toLex_lt_toLex]

theorem ne_notANumber_of_isFinite {u : UnpackedFloat} (h : u.isFinite = true) :
    u ≠ .notANumber := by
  rintro rfl
  exact Bool.noConfusion h

variable {x y low high : Float}

theorem lt_of_infinity (hx : (unpacked x).isFinite = true)
    (hy : unpacked y = .infinity .positive) : x < y := by
  refine lt_iff.mpr ⟨ne_notANumber_of_isFinite hx, ?_, ?_⟩
  · rw [hy]
    exact nofun
  · rw [hy]
    exact (rank_lt_infinity hx).2

theorem infinity_lt (hx : unpacked x = .infinity .negative)
    (hy : (unpacked y).isFinite = true) : x < y := by
  refine lt_iff.mpr ⟨?_, ne_notANumber_of_isFinite hy, ?_⟩
  · rw [hx]
    exact nofun
  · rw [hx]
    exact (rank_lt_infinity hy).1

theorem isFinite_of_not_lt (hx : Quantity.IsNumber x) (hlow : Quantity.isFinite low = true)
    (hhigh : Quantity.isFinite high = true) (hl : ¬x < low) (hh : ¬high < x) :
    Quantity.isFinite x = true := by
  rw [isNumber_iff] at hx
  rw [isFinite_iff] at hlow hhigh ⊢
  cases hu : unpacked x with
  | notANumber => exact absurd hu hx
  | zero s => rfl
  | finite s m e hm => rfl
  | infinity s =>
      cases s with
      | negative => exact absurd (infinity_lt hu hlow) hl
      | positive => exact absurd (lt_of_infinity hhigh hu) hh

variable {a b : Rat}

/-- What is between two finite quantities has a value between theirs. -/
theorem exists_value?_of_not_lt (hx : Quantity.IsNumber x) (hlow : Quantity.value? low = some a)
    (hhigh : Quantity.value? high = some b) (hl : ¬x < low) (hh : ¬high < x) :
    ∃ r, Quantity.value? x = some r ∧ a ≤ r ∧ r ≤ b := by
  have hfinite : Quantity.isFinite x = true :=
    isFinite_of_not_lt hx (Option.isSome_of_eq_some hlow) (Option.isSome_of_eq_some hhigh) hl hh
  obtain ⟨r, hr⟩ := Option.isSome_iff_exists.mp hfinite
  rw [lt_iff_of_value? hr hlow] at hl
  rw [lt_iff_of_value? hhigh hr] at hh
  exact ⟨r, hr, not_lt.mp hl, not_lt.mp hh⟩

theorem exists_value?_clamp (hx : Quantity.IsNumber x) (hlow : Quantity.value? low = some a)
    (hhigh : Quantity.value? high = some b) (hab : a ≤ b) :
    ∃ r, Quantity.value? (Quantity.clamp x low high) = some r ∧ a ≤ r ∧ r ≤ b := by
  rw [Quantity.clamp]
  split
  · exact ⟨a, hlow, le_rfl, hab⟩
  · split
    · exact ⟨b, hhigh, hab, le_rfl⟩
    · rename_i hl hh
      exact exists_value?_of_not_lt hx hlow hhigh hl hh

/-! ### Signs -/

/-- Whatever is not below zero, what is not a number included. -/
def Nonnegative : UnpackedFloat → Prop
  | .infinity .negative => False
  | .finite .negative _ _ _ => False
  | _ => True

theorem not_lt_zero_iff : ¬x < 0.0 ↔ Nonnegative (unpacked x) := by
  rw [lt_iff, unpacked_zero]
  cases unpacked x with
  | notANumber => simp [Nonnegative]
  | zero s => simp [Nonnegative, rank]
  | infinity s => cases s <;> simp [Nonnegative, rank, Prod.Lex.toLex_lt_toLex]
  | finite s m e hm => cases s <;> simp [Nonnegative, rank, Prod.Lex.toLex_lt_toLex]

theorem not_neg_lt_zero (h : x < 0.0) : ¬-x < 0.0 := by
  rw [not_lt_zero_iff, unpacked_neg]
  have hx := not_lt_zero_iff.not_right.mp h
  cases hu : unpacked x with
  | notANumber => trivial
  | zero s => trivial
  | infinity s => cases s <;> simp_all [Nonnegative, UnpackedFloat.neg]
  | finite s m e hm => cases s <;> simp_all [Nonnegative, UnpackedFloat.neg]

theorem value?_zero : Quantity.value? (0.0 : Float) = some 0 :=
  value?_eq_some.mpr (by rw [unpacked_zero]; exact ⟨rfl, rfl⟩)

theorem isNumber_neg : Quantity.IsNumber (-x) ↔ Quantity.IsNumber x := by
  rw [isNumber_iff, isNumber_iff, unpacked_neg]
  cases unpacked x <;> simp [UnpackedFloat.neg]

theorem isFinite_unpacked_neg : (unpacked (-x)).isFinite = (unpacked x).isFinite := by
  rw [unpacked_neg]
  cases unpacked x <;> rfl

/-- A number whose absolute value is not above a bound is finite and within it. -/
theorem exists_value?_of_not_lt_abs (hx : Quantity.IsNumber x)
    (hhigh : Quantity.value? high = some b) (h : ¬high < Quantity.abs x) :
    ∃ r, Quantity.value? x = some r ∧ |r| ≤ b := by
  rw [Quantity.abs] at h
  split at h
  · rename_i hneg
    obtain ⟨r, hr, hnonneg, hle⟩ :=
      exists_value?_of_not_lt (isNumber_neg.mpr hx) value?_zero hhigh (not_neg_lt_zero hneg) h
    have hfinite : (unpacked x).isFinite = true :=
      isFinite_unpacked_neg ▸ (value?_eq_some.mp hr).1
    have hvalue : Quantity.value? x = some (magnitude (unpacked x)) :=
      value?_eq_some.mpr ⟨hfinite, rfl⟩
    obtain rfl := Option.some.inj (hr.symm.trans (value?_neg hvalue))
    exact ⟨_, hvalue, abs_le.mpr ⟨neg_le.mp hle, (neg_nonneg.mp hnonneg).trans
      (hnonneg.trans hle)⟩⟩
  · rename_i hneg
    obtain ⟨r, hr, hnonneg, hle⟩ := exists_value?_of_not_lt hx value?_zero hhigh hneg h
    exact ⟨r, hr, (abs_of_nonneg hnonneg).trans_le hle⟩

end MusicPart.Binary64
