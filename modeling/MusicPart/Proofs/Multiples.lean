import MusicPart.Proofs.ExactTime
import MusicPart.Proofs.Rounding
import MusicPart.Proofs.Words

/-!
# Multiples of a step

The whole multiples of a step of at least a sixteenth come in order, and two of them that are
neither below nor above one another are the same. This holds of all multiples, also where a factor
or a product is rounded or too large, and so an index that is counted up runs through times in
order.
-/

namespace MusicPart

namespace Quantity

/-- What both arithmetics obey where a stretch is divided by a step and run through in multiples of
it. No step is below a sixteenth. -/
class Stepwise (α : Type) [Quantity α] : Prop extends Lawful α where
  le_trans {a b c : α} : a ≤ b → b ≤ c → a ≤ c
  multiple_le {s : α} {j k : Nat} : isFinite s = true → ¬s < 0.0625 → j ≤ k →
    ofInt j * s ≤ ofInt k * s
  multiple_antisymm {s : α} {j k : Nat} : isFinite s = true → ¬s < 0.0625 →
    ofInt j * s ≤ ofInt k * s → ofInt k * s ≤ ofInt j * s → ofInt j * s = ofInt k * s
  /-- Nothing is below zero times what is not finite. -/
  not_le_zero_mul {s t : α} : isFinite s = false → ¬t ≤ ofInt 0 * s
  toInt_floor_nonneg {x s : α} : ¬x < 0.0 → isFinite s = true → ¬s < 0.0625 →
    0 ≤ toInt (floor (x / s + 1e-6))
  toInt_floor_of_not_isFinite {x s : α} : isFinite s = false → toInt (floor (x / s + 1e-6)) = 0

end Quantity

/-! ### Binary64 -/

namespace Binary64

open Float.Model
open Float.Model.UnpackedFloat

theorem unpacked_ofInt {k : Nat} (hk : 0 < k) : unpacked (Quantity.ofInt (k : Int)) =
    (Float.Model.pack (roundWithAccuracy Format.binary64 .positive (k * 2 ^ 53) (-53)
      .exact)).unpack := by
  by_cases hsmall : k < 2 ^ 53
  · have hround := roundWithAccuracy_whole (s := .positive) hk hsmall (k := 53) (by omega)
    rw [ofInt_eq (n := (k : Int)) hsmall]
    change _ = (Float.Model.pack (roundWithAccuracy _ _ _ (-(53 : Nat) : Int) _)).unpack
    rw [hround]
    rfl
  · change unpacked (Float.ofScientific k false 0) = _
    have hnonzero : k ≠ 0 := hk.ne'
    rw [Float.ofScientific, dif_neg fun h => hsmall h.1]
    change (Float.Model.pack (UnpackedFloat.ofScientific Format.binary64 k 0)).unpack = _
    have hsign : Sign.positive * Sign.positive = .positive := rfl
    have hbits : Format.binary64.mantissaBits = 53 := rfl
    have hone : 10 ^ (0 : Int).toNat = 1 := rfl
    have hsmall : ¬(0 : Int) < -((2 ^ Format.binary64.exponentBits : Int) + (k.log2 : Int)) := by
      change ¬(0 : Int) < -(2 ^ 11 + (k.log2 : Int))
      omega
    rw [UnpackedFloat.ofScientific, dif_neg hnonzero, if_neg (by decide), if_neg hsmall,
      if_pos le_rfl, UnpackedFloat.mul]
    simp only [hsign, hbits, hone, mul_one, Nat.shiftLeft_eq, add_zero]
    rfl

theorem roundsTo_ofInt {k : Nat} (hk : 0 < k) :
    RoundsTo k (unpacked (Quantity.ofInt (k : Int))) := by
  have hlog : (k * 2 ^ 53).log2 = k.log2 + 53 := log2_mul_pow hk 53
  have hvalue : ((k * 2 ^ 53 : Nat) : Rat) * 2 ^ (-53 : Int) = k := by
    push_cast
    rw [mul_assoc]
    norm_num
  have hround := roundsTo_pack (m := k * 2 ^ 53) (e := -53) (by positivity) (by omega) (by omega)
    (extends_exact _)
  rwa [hvalue, ← unpacked_ofInt hk] at hround

/-- A step of a sixteenth or more. -/
structure IsStep (s : Float) : Prop where
  finite : Quantity.isFinite s = true
  low : ¬s < 0.0625

theorem IsStep.unpacked_eq {s : Float} (h : IsStep s) :
    ∃ n f hn, unpacked s = .finite .positive n f hn ∧ n.log2 = 52 ∧ -56 ≤ f := by
  obtain ⟨r, hr⟩ := Option.isSome_iff_exists.mp h.finite
  have hsixteenth : Quantity.value? (0.0625 : Float) = some (1 / 16) := by decide +kernel
  have hlow : 1 / 16 ≤ r := not_lt.mp ((lt_iff_of_value? hr hsixteenth).not.mp h.low)
  obtain ⟨hfinite, rfl⟩ := value?_eq_some.mp hr
  cases hs : unpacked s with
  | notANumber => simp [hs, magnitude] at hlow; norm_num at hlow
  | infinity t => simp [hs, magnitude] at hlow; norm_num at hlow
  | zero t => simp [hs, magnitude] at hlow; norm_num at hlow
  | finite t n f hn =>
      obtain ⟨hlt, -, hfull⟩ := canonical_unpacked hs
      rw [hs] at hlow
      cases t with
      | negative =>
          rw [magnitude_negative] at hlow
          have hpos := magnitude_pos (e := f) hn
          linarith
      | positive =>
          rw [magnitude_positive] at hlow
          have hf : -56 ≤ f := by
            have hpow : (2 : Rat) ^ (-4 : Int) < 2 ^ (53 + f) := by
              calc (2 : Rat) ^ (-4 : Int) = 1 / 16 := by norm_num
                _ ≤ n * 2 ^ f := hlow
                _ < (2 ^ 53 : Nat) * 2 ^ f := by gcongr
                _ = 2 ^ (53 + f) := by
                    rw [zpow_add₀ (by norm_num)]
                    norm_num
            have := (zpow_lt_zpow_iff_right₀ (by norm_num)).mp hpow
            omega
          exact ⟨n, f, hn, rfl, (Nat.log2_eq_iff hn.ne').mpr ⟨hfull (by omega), hlt⟩, hf⟩

/-- A positive multiple of a step is rounded twice: the factor, if it is large, and the product. -/
theorem IsStep.multiple {s : Float} (h : IsStep s) : ∃ r : Rat, 0 < r ∧ ∀ {k : Nat}, 0 < k →
    RoundsTo k (unpacked (Quantity.ofInt (k : Int))) ∧
      (unpacked (Quantity.ofInt (k : Int)) = .infinity .positive ∧
          unpacked (Quantity.ofInt (k : Int) * s) = .infinity .positive ∨
        unpacked (Quantity.ofInt (k : Int)) ≠ .infinity .positive ∧
          RoundsTo (nearest k * r) (unpacked (Quantity.ofInt (k : Int) * s))) := by
  obtain ⟨n, f, hn, hs, hfull, hf⟩ := h.unpacked_eq
  refine ⟨n * 2 ^ f, magnitude_pos hn, fun {k} hk => ⟨roundsTo_ofInt hk, ?_⟩⟩
  have hround := roundsTo_ofInt hk
  have hmul : unpacked (Quantity.ofInt (k : Int) * s) = (Float.Model.pack (UnpackedFloat.mul
      Format.binary64 (unpacked (Quantity.ofInt (k : Int))) (unpacked s))).unpack := rfl
  rw [hmul, hs]
  generalize unpacked (Quantity.ofInt (k : Int)) = u at hround
  cases hround with
  | infinity => exact Or.inl ⟨rfl, by rw [UnpackedFloat.mul]; rfl⟩
  | @finite m e hm hmfull _ _ hvalue =>
      right
      have he : -52 ≤ e := by
        have hone : ((2 ^ 52 : Nat) : Rat) * 2 ^ (-52 : Int) ≤ m * 2 ^ e := by
          rw [hvalue]
          calc ((2 ^ 52 : Nat) : Rat) * 2 ^ (-52 : Int) = nearest 1 := by
                rw [nearest_one]
                norm_num
            _ ≤ nearest k := nearest_mono one_pos (by exact_mod_cast hk)
        rcases le_or_of_magnitude_le (by norm_num) (by decide +kernel) hm hmfull hone with h | h <;>
          omega
      have hlog := log2_add_le hm hn
      rw [hmfull, hfull] at hlog
      have hproduct := roundsTo_pack (m := m * n) (e := e + f) (Nat.mul_pos hm hn) (by omega)
        (by omega) (extends_exact _)
      have heq : ((m * n : Nat) : Rat) * 2 ^ (e + f) = nearest k * (n * 2 ^ f) := by
        rw [← hvalue, zpow_add₀ (by norm_num)]
        push_cast
        ring
      rw [heq] at hproduct
      exact ⟨UnpackedFloat.noConfusion, hproduct⟩

/-- Zero, a positive number or infinity. -/
inductive Upward : UnpackedFloat → Prop
  | zero : Upward (.zero .positive)
  | finite {m : Nat} {e : Int} {hm : 0 < m} : Upward (.finite .positive m e hm)
  | infinity : Upward (.infinity .positive)

theorem Upward.eq_of_rank {u v : UnpackedFloat} (hu : Upward u) (hv : Upward v)
    (h : rank u = rank v) : u = v := by
  cases hu <;> cases hv <;> simp_all [rank]

theorem Upward.ne_notANumber {u : UnpackedFloat} (h : Upward u) : u ≠ .notANumber := by
  cases h <;> simp

theorem Upward.rank_le {u : UnpackedFloat} (h : Upward u) :
    rank (.zero .positive) ≤ rank u ∧ rank u ≤ rank (.infinity .positive) := by
  cases h <;> simp [rank, Prod.Lex.toLex_le_toLex]

theorem RoundsTo.upward {x : Rat} {u : UnpackedFloat} (h : RoundsTo x u) : Upward u := by
  cases h with
  | finite => exact .finite
  | infinity => exact .infinity

namespace IsStep

variable {s : Float} (h : IsStep s) {j k : Nat}

include h

theorem unpacked_zero_mul : unpacked (Quantity.ofInt 0 * s) = .zero .positive := by
  obtain ⟨n, f, hn, hs, -⟩ := h.unpacked_eq
  have hzero : (Quantity.ofInt 0 : Float) = 0.0 := by decide
  rw [hzero, mul_eq, unpacked_zero, hs]
  exact unpack_zero

theorem upward_multiple (k : Nat) : Upward (unpacked (Quantity.ofInt (k : Int) * s)) := by
  obtain ⟨r, -, hmultiple⟩ := h.multiple
  rcases Nat.eq_zero_or_pos k with rfl | hk
  · rw [Nat.cast_zero, h.unpacked_zero_mul]
    exact .zero
  · rcases (hmultiple hk).2 with ⟨-, hinfinity⟩ | ⟨-, hround⟩
    · rw [hinfinity]
      exact .infinity
    · exact hround.upward

theorem rank_multiple_mono (hjk : j ≤ k) : rank (unpacked (Quantity.ofInt (j : Int) * s)) ≤
    rank (unpacked (Quantity.ofInt (k : Int) * s)) := by
  obtain ⟨r, hr, hmultiple⟩ := h.multiple
  rcases Nat.eq_zero_or_pos j with rfl | hj
  · rw [Nat.cast_zero, h.unpacked_zero_mul]
    exact (h.upward_multiple k).rank_le.1
  · have hle : (j : Rat) ≤ k := by exact_mod_cast hjk
    have hone : (1 : Rat) ≤ j := by exact_mod_cast hj
    obtain ⟨hfactorj, hmultj⟩ := hmultiple hj
    obtain ⟨hfactork, hmultk⟩ := hmultiple (hj.trans_le hjk)
    rcases hmultk with ⟨-, hk⟩ | ⟨hfinite, hk⟩
    · rw [hk]
      exact (h.upward_multiple j).rank_le.2
    · rcases hmultj with ⟨hinfinity, -⟩ | ⟨-, hj⟩
      · -- All factors above one that is too large are too large as well.
        have hrank := hfactorj.rank_mono hfactork (one_pos.trans_le hone) hle
        rw [hinfinity] at hrank
        exact absurd (hfactork.upward.eq_of_rank .infinity
          (hfactork.upward.rank_le.2.antisymm hrank)) hfinite
      · have hnearest : 1 ≤ nearest j := nearest_one ▸ nearest_mono one_pos hone
        refine hj.rank_mono hk (mul_pos (one_pos.trans_le hnearest) hr) ?_
        gcongr
        exact nearest_mono (one_pos.trans_le hone) hle

theorem multiple_le (hjk : j ≤ k) : Quantity.ofInt (j : Int) * s ≤ Quantity.ofInt (k : Int) * s :=
  le_iff.mpr ⟨(h.upward_multiple j).ne_notANumber, (h.upward_multiple k).ne_notANumber,
    (h.rank_multiple_mono hjk).not_gt⟩

theorem multiple_antisymm (hjk : Quantity.ofInt (j : Int) * s ≤ Quantity.ofInt (k : Int) * s)
    (hkj : Quantity.ofInt (k : Int) * s ≤ Quantity.ofInt (j : Int) * s) :
    Quantity.ofInt (j : Int) * s = Quantity.ofInt (k : Int) * s := by
  have hrank := le_antisymm (not_lt.mp (le_iff.mp hjk).2.2) (not_lt.mp (le_iff.mp hkj).2.2)
  rw [← ofModel_pack_unpacked (Quantity.ofInt (j : Int) * s),
    (h.upward_multiple j).eq_of_rank (h.upward_multiple k) hrank, ofModel_pack_unpacked]

end IsStep

/-! ### Counting steps -/

theorem toInt_nonneg {x : Float} (h : ¬x < 0.0) : 0 ≤ Quantity.toInt x := by
  rw [Quantity.toInt]
  cases hx : Quantity.value? x with
  | none => exact le_rfl
  | some r =>
      have hr : 0 ≤ r := not_lt.mp ((lt_iff_of_value? hx value?_zero).not.mp h)
      rw [Option.map_some, Option.getD_some, Quantity.truncate_of_nonneg hr]
      exact Int.floor_nonneg.mpr hr

theorem IsStep.toInt_floor_nonneg {x s : Float} (h : IsStep s) (hx : ¬x < 0.0) :
    0 ≤ Quantity.toInt (Quantity.floor (x / s + 1e-6)) := by
  obtain ⟨n, f, hn, hs, -⟩ := h.unpacked_eq
  have hpos : ¬s < 0.0 := by
    rw [not_lt_zero_iff, hs]
    trivial
  have hzero : (s == 0.0) = false := by
    rw [← Bool.not_eq_true, beq_zero_iff, hs]
    exact nofun
  exact toInt_nonneg (not_floor_lt_zero (not_add_lt_zero (not_div_lt_zero hx hpos hzero)
    (by decide +kernel)))

theorem toInt_of_notANumber {x : Float} (h : unpacked x = .notANumber) : Quantity.toInt x = 0 := by
  have hx : value? x = none := by
    rw [value?, ← unpacked, h]
  rw [Quantity.toInt]
  exact congrArg (fun v => (v.map Quantity.truncate).getD 0) hx

theorem floor_of_notANumber {x : Float} (h : unpacked x = .notANumber) : Quantity.floor x = x := by
  have hx : Quantity.value? x = none := by
    change value? x = none
    rw [value?, ← unpacked, h]
  rw [Quantity.floor, Quantity.mapWhole, hx]

/-- Divided by what is not finite, a quantity is zero or not a number. -/
theorem div_of_not_isFinite (u : UnpackedFloat) {v : UnpackedFloat} (h : v.isFinite = false) :
    UnpackedFloat.div Format.binary64 u v = .notANumber ∨
      ∃ s, UnpackedFloat.div Format.binary64 u v = .zero s := by
  cases v with
  | zero t => exact Bool.noConfusion h
  | finite t m e hm => exact Bool.noConfusion h
  | notANumber => left; cases u <;> rfl
  | infinity t =>
      cases u with
      | notANumber => exact Or.inl rfl
      | infinity s => exact Or.inl rfl
      | zero s => exact Or.inr ⟨s / t, rfl⟩
      | finite s m e hm => exact Or.inr ⟨s / t, rfl⟩

theorem toInt_floor_of_not_isFinite {x s : Float} (h : Quantity.isFinite s = false) :
    Quantity.toInt (Quantity.floor (x / s + 1e-6)) = 0 := by
  rw [← Bool.not_eq_true, isFinite_iff, Bool.not_eq_true] at h
  have hdiv : unpacked (x / s) = (Float.Model.pack (UnpackedFloat.div Format.binary64 (unpacked x)
      (unpacked s))).unpack := rfl
  rcases div_of_not_isFinite (unpacked x) h with hnan | ⟨t, hzero⟩
  · have hsum : unpacked (x / s + 1e-6) = .notANumber := by
      rw [add_eq, hdiv, hnan]
      rfl
    rw [floor_of_notANumber hsum]
    exact toInt_of_notANumber hsum
  · have hzero : (x / s == 0.0) = true := by
      rw [beq_zero_iff, hdiv, hzero]
      exact ⟨t, unpack_zero⟩
    rcases zero_add (x := 1e-6) hzero with hsum | ⟨hsum, -⟩
    · rw [hsum]
      decide +kernel
    · exact absurd hsum (by decide +kernel)

instance : Quantity.Stepwise Float where
  le_trans hab hbc := by
    obtain ⟨ha, -, hab⟩ := le_iff.mp hab
    obtain ⟨-, hc, hbc⟩ := le_iff.mp hbc
    exact le_iff.mpr ⟨ha, hc, ((not_lt.mp hab).trans (not_lt.mp hbc)).not_gt⟩
  multiple_le hs hlow := IsStep.multiple_le ⟨hs, hlow⟩
  multiple_antisymm hs hlow := IsStep.multiple_antisymm ⟨hs, hlow⟩
  not_le_zero_mul {s t} hs h := by
    have hzero : (Quantity.ofInt 0 : Float) = 0.0 := by decide
    rw [← Bool.not_eq_true, isFinite_iff, Bool.not_eq_true] at hs
    refine (le_iff.mp h).2.1 ?_
    rw [hzero, mul_eq, unpacked_zero, zero_mul_of_not_isFinite .positive hs]
    rfl
  toInt_floor_nonneg hx hs hlow := IsStep.toInt_floor_nonneg ⟨hs, hlow⟩ hx
  toInt_floor_of_not_isFinite := toInt_floor_of_not_isFinite

end Binary64

/-! ### Rational numbers -/

instance Exact.instStepwise : Quantity.Stepwise Rat where
  le_trans := le_trans
  multiple_le {s j k} _ hlow hjk := by
    have hs : (0 : Rat) ≤ s := (by norm_num : (0 : Rat) ≤ 0.0625).trans (not_lt.mp hlow)
    change ((j : Int) : Rat) * s ≤ ((k : Int) : Rat) * s
    gcongr
  multiple_antisymm _ _ := le_antisymm
  not_le_zero_mul h := nomatch h
  toInt_floor_nonneg {x s} hx _ hlow := by
    have hs : (0 : Rat) ≤ s := (by norm_num : (0 : Rat) ≤ 0.0625).trans (not_lt.mp hlow)
    rw [Exact.zero_eq, not_lt] at hx
    change 0 ≤ Quantity.truncate ((⌊x / s + 1e-6⌋ : Int) : Rat)
    rw [Exact.truncate_intCast, Int.floor_nonneg]
    positivity
  toInt_floor_of_not_isFinite h := nomatch h

end MusicPart
