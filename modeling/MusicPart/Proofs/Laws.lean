import MusicPart.Proofs.Binary64
import MusicPart.Quantity.Exact

/-!
# Laws of quantities

Binary64 and the rational numbers agree on a few laws: numbers are in a total order that `==`
respects, a value that is not a number is neither below nor above anything, and zero is added
without a change, except to the sign of another zero.
-/

namespace MusicPart

namespace Quantity

variable {α : Type} [Quantity α]

/-- What is not a number differs from itself. -/
def IsNumber (x : α) : Prop := (x == x) = true

class Lawful (α : Type) [Quantity α] : Prop where
  not_lt_of_lt {a b : α} : a < b → ¬b < a
  isNumber_of_lt {a b : α} : a < b → IsNumber a ∧ IsNumber b
  not_lt_trans {a b c : α} : IsNumber b → ¬b < a → ¬c < b → ¬c < a
  beq_iff {a b : α} : IsNumber a → IsNumber b → ((a == b) = true ↔ ¬a < b ∧ ¬b < a)
  isNumber_of_isFinite {a : α} : isFinite a = true → IsNumber a
  isFinite_of_beq_zero {a : α} : (a == 0.0) = true → isFinite a = true
  zero_add {z a : α} : (z == 0.0) = true → z + a = a ∨ (a == 0.0) = true ∧ (z + a == 0.0) = true
  zero_add_zero_mul {z a : α} : (z == 0.0) = true → isFinite a = true →
    (z + ofInt 0 * a == 0.0) = true
  /-- Zero times what is not finite is not finite, and stays so in a sum. -/
  not_isFinite_zero_mul {z a b : α} : isFinite a = false → isFinite (z + ofInt 0 * a + b) = false
  isFinite_zero : isFinite (0.0 : α) = true
  isFinite_one : isFinite (1.0 : α) = true
  isFinite_sixteenth : isFinite (0.0625 : α) = true

variable [Lawful α]

theorem Lawful.beq_of_beq_zero {a b : α} (ha : (a == 0.0) = true) (hb : (b == 0.0) = true) :
    (a == b) = true := by
  have hzero : IsNumber (0.0 : α) := isNumber_of_isFinite isFinite_zero
  have hnumber {c : α} (hc : (c == 0.0) = true) : IsNumber c :=
    isNumber_of_isFinite (isFinite_of_beq_zero hc)
  obtain ⟨ha0, h0a⟩ := (beq_iff (hnumber ha) hzero).mp ha
  obtain ⟨hb0, h0b⟩ := (beq_iff (hnumber hb) hzero).mp hb
  exact (beq_iff (hnumber ha) (hnumber hb)).mpr
    ⟨not_lt_trans hzero h0b ha0, not_lt_trans hzero h0a hb0⟩

end Quantity

/-! ### Binary64 -/

namespace Binary64

open Float.Model
open Float.Model.UnpackedFloat

def unpacked (x : Float) : UnpackedFloat := x.toModel.unpack

/-- What decides a comparison: the class, then the exponent, then the mantissa. -/
def rank : UnpackedFloat → Int ×ₗ Int ×ₗ Int
  | .infinity .negative => toLex (-2, toLex (0, 0))
  | .finite .negative m e _ => toLex (-1, toLex (-e, -m))
  | .finite .positive m e _ => toLex (1, toLex (e, m))
  | .infinity .positive => toLex (2, toLex (0, 0))
  | _ => toLex (0, toLex (0, 0))

theorem compare_toLex (a b c d e f : Int) :
    compare (toLex (a, toLex (b, c))) (toLex (d, toLex (e, f))) =
      (compare a d).then ((compare b e).then (compare c f)) := rfl

theorem compare_natCast (m n : Nat) : compare (m : Int) n = compare m n := by
  rcases lt_trichotomy m n with h | h | h
  · rw [compare_lt_iff_lt.mpr h, compare_lt_iff_lt.mpr (Int.ofNat_lt.mpr h)]
  · rw [compare_eq_iff_eq.mpr h, compare_eq_iff_eq.mpr (congrArg _ h)]
  · rw [compare_gt_iff_gt.mpr h, compare_gt_iff_gt.mpr (Int.ofNat_lt.mpr h)]

theorem compare_neg (a b : Int) : compare (-a) (-b) = (compare a b).swap := by
  rcases lt_trichotomy a b with h | h | h
  · rw [compare_lt_iff_lt.mpr h, compare_gt_iff_gt.mpr (neg_lt_neg h)]
    rfl
  · rw [compare_eq_iff_eq.mpr h, compare_eq_iff_eq.mpr (congrArg _ h)]
    rfl
  · rw [compare_gt_iff_gt.mpr h, compare_lt_iff_lt.mpr (neg_lt_neg h)]
    rfl

/-- Numbers are compared by their ranks. Only two that are finite and of one sign are compared by
exponent and mantissa, and the other way round where the sign is negative. -/
theorem compare_eq_compare_rank {a b : UnpackedFloat} (ha : a ≠ .notANumber)
    (hb : b ≠ .notANumber) : a.compare b = some (compare (rank a) (rank b)) := by
  cases a with
  | notANumber => exact absurd rfl ha
  | infinity s =>
      cases b with
      | notANumber => exact absurd rfl hb
      | infinity t => cases s <;> cases t <;> rfl
      | zero t => cases s <;> rfl
      | finite t n f hn => cases s <;> cases t <;> rfl
  | zero s =>
      cases b with
      | notANumber => exact absurd rfl hb
      | infinity t => cases t <;> rfl
      | zero t => rfl
      | finite t n f hn => cases t <;> rfl
  | finite s m e hm =>
      cases b with
      | notANumber => exact absurd rfl hb
      | infinity t => cases s <;> cases t <;> rfl
      | zero t => cases s <;> rfl
      | finite t n f hn =>
          cases s <;> cases t
          · rw [rank, rank, compare_toLex, compare_neg, compare_neg, compare_neg,
              compare_natCast, ← Ordering.swap_then, ← Ordering.swap_then]
            rfl
          · rfl
          · rfl
          · rw [rank, rank, compare_toLex, compare_natCast]
            rfl

/-- What is not a number cannot be compared. -/
theorem compare_eq_some {a b : UnpackedFloat} {o : Ordering} : a.compare b = some o ↔
    a ≠ .notANumber ∧ b ≠ .notANumber ∧ compare (rank a) (rank b) = o := by
  by_cases ha : a = .notANumber
  · simp [ha, UnpackedFloat.compare]
  by_cases hb : b = .notANumber
  · cases a <;> simp [hb, UnpackedFloat.compare]
  rw [compare_eq_compare_rank ha hb, Option.some_inj]
  exact ⟨fun h => ⟨ha, hb, h⟩, fun h => h.2.2⟩

theorem lt_iff {a b : Float} : a < b ↔ unpacked a ≠ .notANumber ∧ unpacked b ≠ .notANumber ∧
    rank (unpacked a) < rank (unpacked b) := by
  rw [← compare_lt_iff_lt, ← compare_eq_some]
  change decide (a.toModel < b.toModel) = true ↔ _
  rw [decide_eq_true_eq]
  change ((unpacked a).compare (unpacked b) == some .lt) = true ↔ _
  exact beq_iff_eq

theorem beq_iff {a b : Float} : (a == b) = true ↔ unpacked a ≠ .notANumber ∧
    unpacked b ≠ .notANumber ∧ rank (unpacked a) = rank (unpacked b) := by
  have hcompare : (a == b) = true ↔ (unpacked a).compare (unpacked b) = some .eq := by
    change ((unpacked a).compare (unpacked b) == some .eq) = true ↔ _
    exact beq_iff_eq
  rw [hcompare, compare_eq_some, compare_eq_iff_eq]

theorem isNumber_iff {x : Float} : Quantity.IsNumber x ↔ unpacked x ≠ .notANumber := by
  rw [Quantity.IsNumber]
  rw [beq_iff]
  exact ⟨fun h => h.1, fun h => ⟨h, h, rfl⟩⟩

theorem isFinite_iff {x : Float} :
    Quantity.isFinite x = true ↔ (unpacked x).isFinite = true := by
  change (value? x).isSome = true ↔ _
  rw [value?, unpacked]
  cases x.toModel.unpack <;> simp [UnpackedFloat.isFinite]

/-! ### Adding zero -/

theorem ofModel_pack_unpacked (x : Float) : Float.ofModel (.pack (unpacked x)) = x := by
  have hbits : UnpackedFloat.pack Format.binary64 (unpacked x) = x.toModel.toBits.toBitVec :=
    UnpackedFloat.pack_unpack_of_valid x.toModel.valid
  have hmodel : Float.Model.pack (unpacked x) = x.toModel := by
    rw [Float.Model.pack]
    congr 1
    rw [hbits]
  rw [hmodel]

theorem unpacked_zero : unpacked 0.0 = .zero .positive := by
  have h : (0.0 : Float) = whole .positive 0 := by decide
  rw [h]
  exact unpack_whole (by decide)

theorem add_eq (x y : Float) : x + y =
    .ofModel (.pack (UnpackedFloat.add Format.binary64 (unpacked x) (unpacked y))) := rfl

theorem mul_eq (x y : Float) : x * y =
    .ofModel (.pack (UnpackedFloat.mul Format.binary64 (unpacked x) (unpacked y))) := rfl

theorem beq_zero_iff {x : Float} : (x == 0.0) = true ↔ ∃ s, unpacked x = .zero s := by
  rw [beq_iff, unpacked_zero]
  constructor
  · rintro ⟨hx, -, hrank⟩
    cases hu : unpacked x with
    | zero s => exact ⟨s, rfl⟩
    | notANumber => exact absurd hu hx
    | infinity s => cases s <;> simp [hu, rank] at hrank
    | finite s m e hm => cases s <;> simp [hu, rank] at hrank
  · rintro ⟨s, hs⟩
    rw [hs]
    exact ⟨by simp, by simp, rfl⟩

theorem isFinite_of_beq_zero {x : Float} (h : (x == 0.0) = true) : Quantity.isFinite x = true := by
  obtain ⟨s, hs⟩ := beq_zero_iff.mp h
  rw [isFinite_iff, hs]
  rfl

theorem zero_add {z x : Float} (h : (z == 0.0) = true) :
    z + x = x ∨ (x == 0.0) = true ∧ (z + x == 0.0) = true := by
  obtain ⟨s, hs⟩ := beq_zero_iff.mp h
  rw [add_eq, hs]
  cases hx : unpacked x with
  | zero t =>
      right
      refine ⟨beq_zero_iff.mpr ⟨t, hx⟩, ?_⟩
      cases s <;> cases t <;> rfl
  | _ =>
      left
      conv_rhs => rw [← ofModel_pack_unpacked x, hx]
      rfl

theorem zero_add_zero_mul {z x : Float} (hz : (z == 0.0) = true)
    (hx : Quantity.isFinite x = true) : (z + Float.ofInt 0 * x == 0.0) = true := by
  obtain ⟨s, hs⟩ := beq_zero_iff.mp hz
  have hzero : Float.ofInt 0 = 0.0 := by decide
  rw [isFinite_iff] at hx
  rw [hzero, add_eq, mul_eq, unpacked_zero, hs]
  cases hu : unpacked x with
  | notANumber => exact nomatch hu ▸ hx
  | infinity t => exact nomatch hu ▸ hx
  | zero t => cases s <;> cases t <;> rfl
  | finite t m e hm =>
      have hmul : UnpackedFloat.mul Format.binary64 (.zero .positive) (.finite t m e hm) =
          .zero (.positive * t) := rfl
      rw [hmul]
      cases s <;> cases t <;> rfl

theorem unpacked_notANumber : unpacked (.ofModel (.pack .notANumber)) = .notANumber := rfl

theorem add_notANumber (a : UnpackedFloat) :
    UnpackedFloat.add Format.binary64 a .notANumber = .notANumber := by
  cases a <;> rfl

theorem notANumber_add (a : UnpackedFloat) :
    UnpackedFloat.add Format.binary64 .notANumber a = .notANumber := rfl

theorem zero_mul_of_not_isFinite (s : Sign) {v : UnpackedFloat} (h : v.isFinite = false) :
    UnpackedFloat.mul Format.binary64 (.zero s) v = .notANumber := by
  cases v with
  | zero t => exact Bool.noConfusion h
  | finite t m e hm => exact Bool.noConfusion h
  | notANumber => rfl
  | infinity t => rfl

theorem not_isFinite_zero_mul {z x y : Float} (h : Quantity.isFinite x = false) :
    Quantity.isFinite (z + Float.ofInt 0 * x + y) = false := by
  have hzero : Float.ofInt 0 = 0.0 := by decide
  rw [← Bool.not_eq_true, isFinite_iff, Bool.not_eq_true] at h
  rw [← Bool.not_eq_true, isFinite_iff, hzero, mul_eq, unpacked_zero,
    zero_mul_of_not_isFinite .positive h, add_eq z,
    unpacked_notANumber, add_notANumber, add_eq, unpacked_notANumber, notANumber_add,
    unpacked_notANumber]
  exact Bool.false_ne_true

instance : Quantity.Lawful Float where
  not_lt_of_lt h h' := (lt_iff.mp h).2.2.asymm (lt_iff.mp h').2.2
  isNumber_of_lt h := ⟨isNumber_iff.mpr (lt_iff.mp h).1, isNumber_iff.mpr (lt_iff.mp h).2.1⟩
  not_lt_trans {a b c} hb hba hcb hca := by
    obtain ⟨hc, ha, hlt⟩ := lt_iff.mp hca
    have hb := isNumber_iff.mp hb
    have hab : rank (unpacked a) ≤ rank (unpacked b) :=
      not_lt.mp fun h => hba (lt_iff.mpr ⟨hb, ha, h⟩)
    have hbc : rank (unpacked b) ≤ rank (unpacked c) :=
      not_lt.mp fun h => hcb (lt_iff.mpr ⟨hc, hb, h⟩)
    exact hlt.not_ge (hab.trans hbc)
  beq_iff {a b} ha hb := by
    have ha := isNumber_iff.mp ha
    have hb := isNumber_iff.mp hb
    simp only [beq_iff, lt_iff, ne_eq, ha, hb, not_false_eq_true, true_and, not_lt]
    exact ⟨fun h => ⟨h.ge, h.le⟩, fun h => le_antisymm h.2 h.1⟩
  isNumber_of_isFinite {a} h := by
    rw [isFinite_iff] at h
    rw [isNumber_iff]
    intro hnan
    rw [hnan] at h
    exact nomatch h
  isFinite_of_beq_zero := isFinite_of_beq_zero
  zero_add := zero_add
  zero_add_zero_mul := zero_add_zero_mul
  not_isFinite_zero_mul := not_isFinite_zero_mul
  isFinite_zero := isFinite_of_beq_zero (by decide)
  isFinite_one := by decide
  isFinite_sixteenth := by decide

end Binary64

/-! ### Rational numbers -/

instance Exact.instLawful : Quantity.Lawful Rat where
  not_lt_of_lt h := h.asymm
  isNumber_of_lt _ := ⟨beq_self_eq_true _, beq_self_eq_true _⟩
  not_lt_trans _ hba hcb := not_lt.mpr ((not_lt.mp hba).trans (not_lt.mp hcb))
  beq_iff {a b} _ _ := by
    rw [beq_iff_eq, not_lt, not_lt, and_comm]
    exact le_antisymm_iff
  isNumber_of_isFinite _ := beq_self_eq_true _
  isFinite_of_beq_zero _ := rfl
  zero_add h := by
    left
    rw [eq_of_beq h]
    norm_num
  zero_add_zero_mul {z a} h _ := by
    change (z + ((0 : Int) : Rat) * a == 0.0) = true
    rw [eq_of_beq h, Int.cast_zero, zero_mul, add_zero]
    exact beq_self_eq_true _
  not_isFinite_zero_mul h := nomatch h
  isFinite_zero := rfl
  isFinite_one := rfl
  isFinite_sixteenth := rfl

end MusicPart
