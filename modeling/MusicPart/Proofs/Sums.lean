import MusicPart.Proofs.Differences

/-!
# Sums

A note that is made shorter ends no later, also where its end is rounded. In binary64 a sum is what
is left of one number when the other is taken away with its sign turned round, so that sums keep the
order as differences do. Only opposite infinities have no sum.
-/

namespace MusicPart

namespace Quantity

/-- What both arithmetics obey where durations are added to onsets. -/
class Summed (α : Type) [Quantity α] : Prop extends Ordered α where
  isNumber_of_add {a b : α} : IsNumber (a + b) → IsNumber b
  add_le_add {a b c : α} : IsNumber (c + b) → 0.0625 ≤ a → a ≤ b → c + a ≤ c + b

end Quantity

/-! ### Binary64 -/

namespace Binary64

open Float.Model
open Float.Model.UnpackedFloat
open Quantity (IsNumber)

theorem add_finite_finite (s t : Sign) {m n : Nat} {e f : Int} (hm : 0 < m) (hn : 0 < n) :
    UnpackedFloat.add Format.binary64 (.finite s m e hm) (.finite t n f hn) =
      UnpackedFloat.sub Format.binary64 (.finite t n f hn) (.finite (-s) m e hm) := by
  have hneg (k : Nat) : (-s).apply (k : Int) = -s.apply (k : Int) := by
    cases s
    · exact (neg_neg _).symm
    · rfl
  rw [UnpackedFloat.add, UnpackedFloat.sub]
  simp only [hneg, sub_neg_eq_add, min_comm f e]
  rw [add_comm]

theorem add_eq_sub_neg (u v : UnpackedFloat) : UnpackedFloat.add Format.binary64 u v =
    UnpackedFloat.sub Format.binary64 v u.neg := by
  cases u with
  | notANumber => cases v <;> rfl
  | infinity s =>
      cases v with
      | infinity t => cases s <;> cases t <;> rfl
      | _ => cases s <;> rfl
  | zero s =>
      cases v with
      | zero t => cases s <;> cases t <;> rfl
      | _ => rfl
  | finite s m e hm =>
      cases v with
      | finite t n f hn => exact add_finite_finite s t hm hn
      | zero t => cases s <;> rfl
      | _ => rfl

theorem add_eq_sub (x y : Float) : x + y = y - -x := by
  rw [add_eq, add_eq_sub_neg, ← unpacked_neg]
  rfl

theorem unpacked_add (x y : Float) : unpacked (x + y) = (Float.Model.pack
    (UnpackedFloat.add Format.binary64 (unpacked x) (unpacked y))).unpack := rfl

theorem isNumber_of_isNumber_add {x y : Float} (h : IsNumber (x + y)) : IsNumber y := by
  rw [isNumber_iff, unpacked_add] at h
  rw [isNumber_iff]
  intro hy
  rw [hy, add_notANumber] at h
  exact h unpacked_notANumber

/-- Numbers have no difference only if they are one infinity. -/
theorem exists_infinity_of_sub {x z : Float} (hx : unpacked x ≠ .notANumber)
    (hz : unpacked z ≠ .notANumber) (h : unpacked (x - z) = .notANumber) :
    ∃ s, unpacked x = .infinity s ∧ unpacked z = .infinity s := by
  rcases infinity_or_isFinite hz with ⟨t, hinfinite⟩ | hfz
  · rw [unpacked_sub, hinfinite] at h
    cases hu : unpacked x with
    | notANumber => exact absurd hu hx
    | infinity s =>
        rw [hu] at h
        cases s <;> cases t
        · exact ⟨_, rfl, hinfinite⟩
        · exact absurd (h.symm.trans (unpack_pack_infinity .negative)) nofun
        · exact absurd (h.symm.trans (unpack_pack_infinity .positive)) nofun
        · exact ⟨_, rfl, hinfinite⟩
    | _ =>
        rw [hu] at h
        exact absurd (h.symm.trans (unpack_pack_infinity (-t))) nofun
  · rcases infinity_or_isFinite hx with ⟨s, hinfinite⟩ | hfx
    · rw [unpacked_infinity_sub hinfinite hfz] at h
      cases h
    · have hattains := attains_sub hfx hfz
      rw [h] at hattains
      cases hattains with
      | finite hfinite => cases hfinite

theorem unpacked_of_infinity_le {x y : Float} (hx : unpacked x = .infinity .positive)
    (h : x ≤ y) : unpacked y = .infinity .positive := by
  obtain ⟨-, hy, hrank⟩ := le_iff.mp h
  rw [hx] at hrank
  rcases infinity_or_isFinite hy with ⟨s, hinfinite⟩ | hfinite
  · cases s with
    | positive => exact hinfinite
    | negative => exact absurd (by rw [hinfinite]; decide) hrank
  · exact absurd (rank_lt_infinity hfinite).2 hrank

/-- A sum is still a number when what is added gets smaller and stays above a sixteenth. -/
theorem isNumber_add_of_le {x y c : Float} (hsum : IsNumber (c + y)) (hx : 0.0625 ≤ x)
    (hxy : x ≤ y) : IsNumber (c + x) := by
  have hnumber : unpacked x ≠ .notANumber := (le_iff.mp hx).2.1
  have hc : unpacked (-c) ≠ .notANumber := by
    intro hc
    rw [add_eq_sub, isNumber_iff, unpacked_sub, hc, sub_notANumber] at hsum
    exact hsum unpacked_notANumber
  rw [add_eq_sub, isNumber_iff] at hsum ⊢
  intro h
  obtain ⟨s, hxs, hcs⟩ := exists_infinity_of_sub hnumber hc h
  cases s with
  | negative =>
      refine absurd ?_ (le_iff.mp hx).2.2
      rw [hxs]
      decide
  | positive =>
      have hy := unpacked_of_infinity_le hxs hxy
      rw [unpacked_sub, hy, hcs] at hsum
      exact hsum rfl

instance : Quantity.Summed Float where
  isNumber_of_add := isNumber_of_isNumber_add
  add_le_add {a b c} hsum ha hab := by
    have hlt : ¬c + b < c + a := by
      rw [add_eq_sub, add_eq_sub]
      exact not_sub_lt_sub (Quantity.Ordered.not_lt_of_le hab)
    exact Quantity.Ordered.le_iff.mpr ⟨isNumber_add_of_le hsum ha hab, hsum, hlt⟩

end Binary64

instance Exact.instSummed : Quantity.Summed Rat where
  isNumber_of_add _ := beq_self_eq_true _
  add_le_add _ _ hab := add_le_add_right hab _

end MusicPart
