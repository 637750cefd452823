import MusicPart.Proofs.Meters
import MusicPart.Proofs.Positions
import MusicPart.Proofs.Products

/-!
# Times of bars and beats

The time of a bar and a beat is not below zero. In binary64 it is a number unless bar and beat stand
so far from the first ones, in opposite directions, that both lengths are infinite.
-/

namespace MusicPart

open Quantity (IsNumber)

namespace Binary64

open Float.Model
open Float.Model.UnpackedFloat

variable {x y z : Float} {b : Rat}

/-! ### Numbers -/

theorem isNumber_sub_iff : IsNumber (x - z) ↔ IsNumber x ∧ IsNumber z ∧
    ¬∃ s, unpacked x = .infinity s ∧ unpacked z = .infinity s := by
  constructor
  · intro h
    refine ⟨(isNumber_of_sub h).1, (isNumber_of_sub h).2, ?_⟩
    rintro ⟨s, hx, hz⟩
    rw [isNumber_iff, unpacked_sub, hx, hz] at h
    cases s <;> exact h rfl
  · rintro ⟨hx, hz, hnone⟩
    rw [isNumber_iff] at hx hz ⊢
    exact fun h => hnone (exists_infinity_of_sub hx hz h)

theorem sign_neg_neg (s : Sign) : - -s = s := by
  cases s <;> rfl

theorem unpacked_neg_eq_infinity {s : Sign} :
    unpacked (-x) = .infinity s ↔ unpacked x = .infinity (-s) := by
  rw [unpacked_neg]
  cases unpacked x with
  | infinity t =>
      rw [UnpackedFloat.neg, infinity.injEq, infinity.injEq]
      exact ⟨fun h => h ▸ (sign_neg_neg t).symm, fun h => h ▸ sign_neg_neg s⟩
  | _ => simp [UnpackedFloat.neg]

theorem isNumber_add_iff : IsNumber (x + y) ↔ IsNumber x ∧ IsNumber y ∧
    ¬∃ s, unpacked x = .infinity s ∧ unpacked y = .infinity (-s) := by
  rw [add_eq_sub, isNumber_sub_iff, isNumber_neg, and_left_comm]
  refine and_congr_right fun _ => and_congr_right fun _ => not_congr ⟨?_, ?_⟩
  · rintro ⟨s, hy, hx⟩
    exact ⟨-s, unpacked_neg_eq_infinity.mp hx, by rwa [sign_neg_neg]⟩
  · rintro ⟨s, hx, hy⟩
    exact ⟨-s, hy, unpacked_neg_eq_infinity.mpr (by rwa [sign_neg_neg])⟩

theorem notANumber_mul (u : UnpackedFloat) :
    UnpackedFloat.mul Format.binary64 .notANumber u = .notANumber := by
  cases u <;> rfl

theorem isNumber_of_infinity {s : Sign} (h : unpacked x = .infinity s) : IsNumber x := by
  rw [isNumber_iff, h]
  exact nofun

/-- A finite factor other than zero does not change whether there is a number. -/
theorem isNumber_mul_iff (hy : Quantity.value? y = some b) (hb : b ≠ 0) :
    IsNumber (x * y) ↔ IsNumber x := by
  have hmul : unpacked (x * y) = (Float.Model.pack
    (UnpackedFloat.mul Format.binary64 (unpacked x) (unpacked y))).unpack := rfl
  constructor
  · intro h
    rw [isNumber_iff] at h ⊢
    intro hx
    rw [hmul, hx, notANumber_mul] at h
    exact h unpacked_notANumber
  · intro hx
    rcases infinity_or_isFinite (isNumber_iff.mp hx) with ⟨s, hs⟩ | hfinite
    · obtain ⟨hfinite, rfl⟩ := value?_eq_some.mp hy
      rw [hs] at hmul
      cases hv : unpacked y with
      | notANumber => simp [hv, UnpackedFloat.isFinite] at hfinite
      | infinity t => simp [hv, UnpackedFloat.isFinite] at hfinite
      | zero t => exact absurd (congrArg magnitude hv) hb
      | finite t n f hn =>
          rw [hv] at hmul
          exact isNumber_of_infinity (hmul.trans (unpack_pack_infinity (s * t)))
    · have hproduct := approximates_mul (value?_eq_some.mpr ⟨hfinite, rfl⟩) hy
      cases hvalue : Quantity.value? (x * y) with
      | some p =>
          exact Quantity.Lawful.isNumber_of_isFinite (Option.isSome_of_eq_some hvalue)
      | none =>
          obtain ⟨s, hs⟩ := hproduct.exists_infinity hvalue
          exact isNumber_of_infinity hs

/-- A result of moderate size is near what it approximates. -/
theorem Approximates.exists_value? {r : Rat} (h : Approximates r (unpacked y))
    (hlow : 1 / 2 ^ 32 ≤ r) (hhigh : r ≤ 2 ^ 32) :
    ∃ b, Quantity.value? y = some b ∧ r / 2 ≤ b ∧ b ≤ 2 * r := by
  have hpos : 0 < r := lt_of_lt_of_le (by positivity) hlow
  have hbound : |r| ≤ 2 ^ (1023 : Int) := by
    rw [abs_of_pos hpos]
    exact hhigh.trans (zpow_le_zpow_right₀ one_le_two (by decide : (32 : Int) ≤ 1023))
  have hleast : (2 : Rat) ^ (-1075 : Int) ≤ r / 4 := by
    calc (2 : Rat) ^ (-1075 : Int) ≤ 2 ^ (-34 : Int) := zpow_le_zpow_right₀ one_le_two (by decide)
      _ = 1 / 2 ^ 32 / 4 := by norm_num
      _ ≤ r / 4 := by gcongr
  obtain ⟨b, hb⟩ := h.value? hbound
  have herror := abs_le.mp (h.abs_sub_le hb)
  rw [abs_of_pos hpos] at herror
  refine ⟨b, hb, ?_, ?_⟩ <;> linarith

theorem isNumber_sub_one_iff : IsNumber (x - 1.0) ↔ IsNumber x := by
  have hone : Quantity.value? (1.0 : Float) = some 1 := by decide +kernel
  have hfinite := (value?_eq_some.mp hone).1
  rw [isNumber_sub_iff]
  refine ⟨And.left, fun hx => ⟨hx, ?_, ?_⟩⟩
  · exact Quantity.Lawful.isNumber_of_isFinite (isFinite_iff.mpr hfinite)
  · rintro ⟨s, -, hinfinite⟩
    rw [hinfinite] at hfinite
    cases hfinite

/-! ### Results that stay finite -/

/-- The greatest finite number. -/
def greatest : Float := .ofModel (.pack (.finite .positive (2 ^ 53 - 1) 971 (by decide)))

theorem unpacked_greatest :
    unpacked greatest = .finite .positive (2 ^ 53 - 1) 971 (by decide) :=
  unpack_pack_normal .positive (by decide) (by decide) (by decide) (by decide)

theorem not_greatest_lt (hx : (unpacked x).isFinite = true) : ¬greatest < x := by
  have hbounded : Bounded (unpacked x) := bounded_unpack hx
  intro h
  have hrank := (lt_iff.mp h).2.2
  rw [unpacked_greatest] at hrank
  cases hu : unpacked x with
  | notANumber => simp [hu, UnpackedFloat.isFinite] at hx
  | infinity s => simp [hu, UnpackedFloat.isFinite] at hx
  | zero s => simp [hu, rank, Prod.Lex.toLex_lt_toLex] at hrank
  | finite s m e hm =>
      rw [hu] at hbounded hrank
      have hlt := (canonical_unpacked hu).lt
      have hexp : e ≤ 971 := hbounded
      cases s with
      | negative => simp [rank, Prod.Lex.toLex_lt_toLex] at hrank
      | positive =>
          simp only [rank, Prod.Lex.toLex_lt_toLex] at hrank
          omega

theorem abs_le_greatest {a g : Rat} (hx : Quantity.value? x = some a)
    (hg : Quantity.value? greatest = some g) : |a| ≤ g := by
  have hbound {y : Float} {c : Rat} (hy : Quantity.value? y = some c) : c ≤ g := by
    have hle := not_greatest_lt (value?_eq_some.mp hy).1
    rwa [lt_iff_of_value? hg hy, not_lt] at hle
  exact abs_le.mpr ⟨neg_le.mp (hbound (value?_neg hx)), hbound hx⟩

/-- One is too little to be taken from a number that is nearly infinite. -/
theorem isFinite_sub_one {a : Rat} (hx : Quantity.value? x = some a) :
    Quantity.isFinite (x - 1.0) = true := by
  have hg : Quantity.value? greatest = some (magnitude (unpacked greatest)) :=
    value?_eq_some.mpr ⟨by rw [unpacked_greatest]; rfl, rfl⟩
  obtain ⟨hlow, hhigh⟩ := abs_le.mp (abs_le_greatest hx hg)
  -- Subtraction keeps the order, and next to the greatest number the one is rounded away.
  have hlow' : -greatest - 1.0 = -greatest := by decide +kernel
  have hhigh' : greatest - 1.0 = greatest := by decide +kernel
  refine isFinite_of_not_lt (isNumber_sub_one_iff.mpr ?_)
    (Option.isSome_of_eq_some (value?_neg hg)) (Option.isSome_of_eq_some hg) ?_ ?_
  · exact Quantity.Lawful.isNumber_of_isFinite (Option.isSome_of_eq_some hx)
  · rw [← hlow']
    exact not_sub_lt_sub (by rwa [lt_iff_of_value? hx (value?_neg hg), not_lt])
  · rw [← hhigh']
    exact not_sub_lt_sub (by rwa [lt_iff_of_value? hg hx, not_lt])

theorem exists_value?_mul_of_le_one {a : Rat} (hx : Quantity.value? x = some a)
    (hy : Quantity.value? y = some b) (hb : |b| ≤ 1) : ∃ p, Quantity.value? (x * y) = some p := by
  cases approximates_mul hx hy with
  | attains h =>
      refine ⟨_, h.value? ?_⟩
      obtain ⟨hround, hlimit⟩ := rounded_of_value? hx
      have hround : rounded |a| = |a| := by
        rcases abs_choice a with h | h <;> rw [h]
        · exact hround
        · rw [rounded_neg, hround]
      have hle : |a * b| ≤ |a| := by
        rw [abs_mul]
        exact mul_le_of_le_one_right (abs_nonneg a) hb
      have hlow := rounded_mono (abs_le.mp hle).1
      have hhigh := rounded_mono (abs_le.mp hle).2
      rw [rounded_neg, hround] at hlow
      rw [hround] at hhigh
      exact (abs_le.mpr ⟨hlow, hhigh⟩).trans_lt hlimit
  | tiny hu _ _ _ => exact ⟨_, value?_eq_some.mpr ⟨hu, rfl⟩⟩

end Binary64

namespace Meter

open Binary64

variable {t : Text} {m : Meter} {bar beat : Float}

/-- The lengths of a bar and of a beat are finite and above zero. -/
theorem exists_value?_lengths (h : read? t = some m) :
    (∃ b, Quantity.value? (m.beatLength : Float) = some b ∧ 0 < b) ∧
      ∃ b, Quantity.value? (m.barLength : Float) = some b ∧ 0 < b := by
  obtain ⟨⟨hlow, hhigh⟩, hlow', hhigh'⟩ := bounds_of_read? h
  have hbeats := value?_ofInt (n := m.beats) (by omega)
  have hunit := value?_ofInt (n := m.unit) (by omega)
  have hlow : (1 : Rat) ≤ m.beats := by exact_mod_cast hlow
  have hhigh : (m.beats : Rat) ≤ 1000000 := by exact_mod_cast hhigh
  have hlow' : (1 : Rat) ≤ m.unit := by exact_mod_cast hlow'
  have hhigh' : (m.unit : Rat) ≤ 1000000 := by exact_mod_cast hhigh'
  have hquotient : 4 / 1000000 ≤ 4 / (m.unit : Rat) := by gcongr
  have hquotient' : 4 / (m.unit : Rat) ≤ 4 := by
    rw [div_le_iff₀ (by linarith)]
    linarith
  have hbeat := approximates_div value?_four hunit (by linarith)
  generalize 4 / (m.unit : Rat) = r at hbeat hquotient hquotient'
  obtain ⟨b, hb, hblow, hbhigh⟩ := hbeat.exists_value? (by linarith) (by linarith)
  have hproduct : b ≤ m.beats * b := le_mul_of_one_le_left (by linarith) hlow
  have hproduct' : m.beats * b ≤ 1000000 * b := by
    gcongr
    linarith
  obtain ⟨c, hc, hclow, -⟩ := (approximates_mul hbeats hb).exists_value?
    (by linarith) (by linarith)
  exact ⟨⟨b, hb, by linarith⟩, c, hc, by linarith⟩

/-- The lengths up to a bar and up to a beat are opposite infinities. -/
def Clashes (m : Meter) (bar beat : Float) : Prop :=
  ∃ s, unpacked ((bar - 1.0) * m.barLength) = .infinity s ∧
    unpacked ((beat - 1.0) * m.beatLength) = .infinity (-s)

theorem beatLength_le_one (h : read? t = some m) (hunit : 4 ≤ m.unit) :
    ∃ b, Quantity.value? (m.beatLength : Float) = some b ∧ |b| ≤ 1 := by
  have hhigh := (bounds_of_read? h).2.2
  have hvalue := value?_ofInt (n := m.unit) (by omega)
  have hunit : (4 : Rat) ≤ m.unit := by exact_mod_cast hunit
  have hhigh : (m.unit : Rat) ≤ 1000000 := by exact_mod_cast hhigh
  have hbeat := approximates_div value?_four hvalue (by linarith)
  have hlow : 4 / 1000000 ≤ 4 / (m.unit : Rat) := by gcongr
  have hle : 4 / (m.unit : Rat) ≤ 1 := (div_le_one (by linarith)).mpr hunit
  generalize 4 / (m.unit : Rat) = r at hbeat hlow hle
  obtain ⟨hone, -⟩ := rounded_of_value? (by decide +kernel : Quantity.value? (1.0 : Float) = some 1)
  have hpos : 0 ≤ r := by linarith
  have hbound : |r| ≤ 2 ^ (1023 : Int) := by
    rw [abs_of_nonneg hpos]
    exact hle.trans (one_le_zpow₀ one_le_two (by decide))
  have hnormal : 2 ^ (-1022 : Int) ≤ |r| := by
    rw [abs_of_nonneg hpos]
    refine le_trans ?_ hlow
    calc (2 : Rat) ^ (-1022 : Int) ≤ 2 ^ (-18 : Int) := zpow_le_zpow_right₀ one_le_two (by decide)
      _ ≤ 4 / 1000000 := by norm_num
  refine ⟨_, hbeat.value?_eq_rounded hbound fun _ => hnormal, ?_⟩
  rw [abs_of_nonneg (rounded_nonneg hpos), ← hone]
  exact rounded_mono hle

/-- Where a beat is not longer than a quarter, no beat is infinitely far from the first one. -/
theorem not_clashes (h : read? t = some m) (hunit : 4 ≤ m.unit)
    (hbeat : Quantity.isFinite beat = true) : ¬m.Clashes bar beat := by
  obtain ⟨b, hb, hle⟩ := beatLength_le_one h hunit
  obtain ⟨a, ha⟩ := Option.isSome_iff_exists.mp hbeat
  obtain ⟨c, hc⟩ := Option.isSome_iff_exists.mp (isFinite_sub_one ha)
  obtain ⟨p, hp⟩ := exists_value?_mul_of_le_one hc hb hle
  rintro ⟨s, -, hinfinite⟩
  have hfinite := (value?_eq_some.mp hp).1
  rw [hinfinite] at hfinite
  cases hfinite

theorem isNumber_timeAt_iff (h : read? t = some m) : IsNumber (m.timeAt bar beat) ↔
    IsNumber bar ∧ IsNumber beat ∧ ¬m.Clashes bar beat := by
  obtain ⟨⟨b, hb, hbpos⟩, c, hc, hcpos⟩ := exists_value?_lengths h
  have hsum : IsNumber ((bar - 1.0) * m.barLength + (beat - 1.0) * m.beatLength) ↔
      IsNumber bar ∧ IsNumber beat ∧ ¬m.Clashes bar beat := by
    rw [isNumber_add_iff, isNumber_mul_iff hc hcpos.ne', isNumber_mul_iff hb hbpos.ne',
      isNumber_sub_one_iff, isNumber_sub_one_iff]
    rfl
  rw [← hsum, timeAt]
  split_ifs with hlt
  · exact iff_of_true (Quantity.Lawful.isNumber_of_isFinite Quantity.Lawful.isFinite_zero)
      (Quantity.Lawful.isNumber_of_lt hlt).1
  · exact Iff.rfl

theorem zero_le_timeAt_iff (h : read? t = some m) : 0.0 ≤ m.timeAt bar beat ↔
    IsNumber bar ∧ IsNumber beat ∧ ¬m.Clashes bar beat := by
  have hzero : IsNumber (0.0 : Float) :=
    Quantity.Lawful.isNumber_of_isFinite Quantity.Lawful.isFinite_zero
  rw [Quantity.Ordered.le_iff, ← isNumber_timeAt_iff h]
  exact ⟨fun hle => hle.2.1, fun hnumber => ⟨hzero, hnumber, Position.not_timeAt_lt_zero m _ _⟩⟩

end Meter

end MusicPart
