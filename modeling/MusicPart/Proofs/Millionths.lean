import MusicPart.Proofs.Products
import MusicPart.Proofs.Multiples

/-!
# Millionths

Rounding to six places multiplies by a million, rounds to a whole number and divides again. In
binary64 each of the three steps has an error of its own, and together they are small beside a
millionth or beside the number. At the largest numbers of sixty-two and of sixty-three digits
nothing is lost, so rounding makes no number longer or shorter than these.
-/

namespace MusicPart.Binary64

open Float.Model
open Float.Model.UnpackedFloat

/-! ### Whole numbers -/

theorem value?_ofInt_of_rounded {n : Int} (h : rounded n = n) (hlt : |(n : Rat)| < limit) :
    Quantity.value? (Quantity.ofInt n : Float) = some (n : Rat) := by
  have hpositive {k : Nat} (hk : 0 < k) (h : rounded k = k) (hlt : |(k : Rat)| < limit) :
      Quantity.value? (Quantity.ofInt (k : Int) : Float) = some (k : Rat) := by
    have hattains := (roundsTo_ofInt hk).attains
    rw [← rounded_of_nonneg k.cast_nonneg, h] at hattains
    exact hattains.value? hlt
  obtain ⟨k, rfl | rfl⟩ := n.eq_nat_or_neg
  · rcases Nat.eq_zero_or_pos k with rfl | hk
    · exact value?_ofInt (by decide)
    · exact hpositive hk h hlt
  · rcases Nat.eq_zero_or_pos k with rfl | hk
    · exact value?_ofInt (by decide)
    · obtain ⟨j, rfl⟩ := Nat.exists_eq_succ_of_ne_zero hk.ne'
      have hneg : (Quantity.ofInt (-((j + 1 : Nat) : Int)) : Float) =
          -Quantity.ofInt ((j + 1 : Nat) : Int) := rfl
      rw [Int.cast_neg, Int.cast_natCast, rounded_neg, neg_inj] at h
      rw [Int.cast_neg, Int.cast_natCast, abs_neg] at hlt
      rw [Int.cast_neg, Int.cast_natCast, hneg]
      exact value?_neg (hpositive hk h hlt)

/-- A large number has no bits below a power of two. -/
theorem exists_multiple_of_value? {y : Float} {b : Rat} (hy : Quantity.value? y = some b) (k : Nat)
    (hb : 2 ^ (52 + k) ≤ |b|) : ∃ n : Int, b = n * 2 ^ k := by
  obtain ⟨n, e, hn, -, rfl⟩ := exists_mantissa hy
  have hexponent : (k : Int) ≤ e := by
    by_contra hlow
    refine absurd hb (not_le.mpr ?_)
    have hlt : |(n : Rat)| < 2 ^ 53 := by
      rw [← Int.cast_abs, Int.abs_eq_natAbs]
      exact_mod_cast hn
    calc |(n : Rat) * 2 ^ e| = |(n : Rat)| * 2 ^ e := by
          rw [abs_mul, abs_of_pos (by positivity : (0 : Rat) < 2 ^ e)]
      _ ≤ |(n : Rat)| * 2 ^ ((k : Int) - 1) := by
          gcongr
          · norm_num
          · omega
      _ < 2 ^ 53 * 2 ^ ((k : Int) - 1) := by gcongr
      _ = 2 ^ (52 + k) := by
          rw [zpow_sub₀ (by norm_num), zpow_natCast, pow_add]
          ring
  obtain ⟨j, rfl⟩ : ∃ j : Nat, e = j + k := ⟨(e - k).toNat, by omega⟩
  refine ⟨n * 2 ^ j, ?_⟩
  rw [zpow_add₀ (by norm_num), zpow_natCast, zpow_natCast]
  push_cast
  ring

/-! ### Rounding to six places -/

theorem roundHalfAway_of_nonneg {r : Rat} (h : 0 ≤ r) :
    Quantity.roundHalfAway r = ⌊r + 1 / 2⌋ := if_neg h.not_gt

theorem roundHalfAway_neg (r : Rat) : Quantity.roundHalfAway (-r) = -Quantity.roundHalfAway r := by
  rcases lt_trichotomy r 0 with h | rfl | h
  · rw [roundHalfAway_of_nonneg (neg_nonneg.mpr h.le), Quantity.roundHalfAway, if_pos h, neg_neg]
    rfl
  · rw [neg_zero]
    decide +kernel
  · rw [roundHalfAway_of_nonneg h.le, Quantity.roundHalfAway, if_pos (neg_neg_of_pos h), neg_neg]
    rfl

theorem abs_roundHalfAway_sub_le (r : Rat) : |(Quantity.roundHalfAway r : Rat) - r| ≤ 1 / 2 := by
  have hnonneg {s : Rat} (h : 0 ≤ s) : |(Quantity.roundHalfAway s : Rat) - s| ≤ 1 / 2 := by
    have hlow := Int.floor_le (s + 1 / 2)
    have hhigh := Int.lt_floor_add_one (s + 1 / 2)
    rw [roundHalfAway_of_nonneg h, abs_le]
    constructor <;> linarith
  rcases le_total 0 r with h | h
  · exact hnonneg h
  · have hneg := hnonneg (neg_nonneg.mpr h)
    rwa [roundHalfAway_neg, Int.cast_neg, neg_sub_neg, abs_sub_comm] at hneg

theorem roundHalfAway_mono_of_nonneg {r s : Rat} (hr : 0 ≤ r) (h : r ≤ s) :
    Quantity.roundHalfAway r ≤ Quantity.roundHalfAway s := by
  rw [roundHalfAway_of_nonneg hr, roundHalfAway_of_nonneg (hr.trans h)]
  exact Int.floor_le_floor (by linarith)

variable {x y : Float} {a b p r : Rat}

theorem abs_mul_million (a : Rat) : |a * 1000000| = |a| * 1000000 := by
  rw [abs_mul, abs_of_pos (by norm_num : (0 : Rat) < 1000000)]

theorem abs_div_million (a : Rat) : |a / 1000000| = |a| / 1000000 := by
  rw [abs_div, abs_of_pos (by norm_num : (0 : Rat) < 1000000)]

theorem value?_million : Quantity.value? (1e6 : Float) = some 1000000 := by decide +kernel

theorem value?_round (hp : Quantity.value? y = some p) :
    Quantity.value? (Quantity.round y) = some (Quantity.roundHalfAway p : Rat) := by
  rw [Quantity.round, Quantity.mapWhole, hp]
  dsimp only
  obtain ⟨hrounded, hlt⟩ := rounded_of_value? hp
  rcases lt_or_ge |p| (2 ^ 52) with hsmall | hlarge
  · refine value?_ofInt ?_
    have herror := abs_roundHalfAway_sub_le p
    have habs : |(Quantity.roundHalfAway p : Rat)| < 2 ^ 53 := by
      rw [abs_lt] at hsmall ⊢
      rw [abs_le] at herror
      constructor <;> linarith
    rw [← Int.cast_abs, Int.abs_eq_natAbs] at habs
    exact_mod_cast habs
  · -- A large number is a whole one already.
    obtain ⟨n, hn⟩ := exists_multiple_of_value? hp 0 hlarge
    rw [pow_zero, mul_one] at hn
    rw [hn] at hrounded hlt ⊢
    rw [roundHalfAway_intCast]
    exact value?_ofInt_of_rounded hrounded hlt

theorem value?_roundTo (hp : Quantity.value? (x * 1e6) = some p) :
    Quantity.value? (Quantity.roundTo 1e6 x) =
      some (rounded (Quantity.roundHalfAway p / 1000000)) := by
  have hround := value?_round hp
  have hn := (rounded_of_value? hround).2
  have hquotient := approximates_div hround value?_million (by norm_num)
  rw [Quantity.roundTo]
  generalize Quantity.roundHalfAway p = n at *
  refine hquotient.value?_eq_rounded ?_ fun hne => ?_
  · rw [abs_div_million, div_le_iff₀ (by norm_num)]
    have hpos : (0 : Rat) < 2 ^ (1023 : Int) := by positivity
    rw [limit_eq] at hn
    generalize (2 : Rat) ^ (1023 : Int) = half at hn hpos ⊢
    linarith
  · -- No quotient of a whole number is too small for all bits of a mantissa.
    have hone : (1 : Rat) ≤ |(n : Rat)| := by
      have hzero : n ≠ 0 := by
        rintro rfl
        simp at hne
      exact_mod_cast Int.one_le_abs hzero
    rw [abs_div_million]
    calc (2 : Rat) ^ (-1022 : Int) ≤ 2 ^ (-20 : Int) :=
          zpow_le_zpow_right₀ (by norm_num) (by decide)
      _ ≤ 1 / 1000000 := by norm_num
      _ ≤ |(n : Rat)| / 1000000 := by gcongr

/-- What the product makes too large stays so. -/
theorem value?_roundTo_eq_none (hx : Quantity.value? x = some a)
    (hp : Quantity.value? (x * 1e6) = none) :
    Quantity.value? (Quantity.roundTo 1e6 x) = none := by
  obtain ⟨s, hs⟩ := (approximates_mul hx value?_million).exists_infinity hp
  have hround : Quantity.round (x * 1e6) = x * 1e6 := by
    rw [Quantity.round, Quantity.mapWhole, hp]
  have hinfinite : unpacked (Quantity.roundTo 1e6 x) = .infinity s := by
    rw [Quantity.roundTo, hround]
    exact unpacked_infinity_div hs value?_million (by norm_num)
  have hnot : ¬(unpacked (Quantity.roundTo 1e6 x)).isFinite = true := by
    rw [hinfinite]
    exact Bool.false_ne_true
  rw [← isFinite_iff, Quantity.isFinite, Option.isSome_iff_ne_none] at hnot
  exact not_not.mp hnot

/-! ### Errors in millionths -/

/-- A number in millionths on its way to six places: the product, the nearest whole number, and the
quotient. -/
structure Rounds (a p : Rat) (n : Int) (r : Rat) : Prop where
  product : |p - a * 1000000| ≤ |a * 1000000| / 2 ^ 53 + 2 ^ (-1075 : Int)
  whole : |n - p| ≤ 1 / 2
  quotient : |r * 1000000 - n| ≤ |(n : Rat)| / 2 ^ 53

theorem exists_product (hx : Quantity.value? x = some a)
    (hr : Quantity.value? (Quantity.roundTo 1e6 x) = some r) :
    ∃ p, Quantity.value? (x * 1e6) = some p ∧
      r = rounded (Quantity.roundHalfAway p / 1000000) := by
  cases hp : Quantity.value? (x * 1e6) with
  | none => exact nomatch hr.symm.trans (value?_roundTo_eq_none hx hp)
  | some p => exact ⟨p, rfl, Option.some.inj (hr.symm.trans (value?_roundTo hp))⟩

theorem exists_rounds (hx : Quantity.value? x = some a)
    (hr : Quantity.value? (Quantity.roundTo 1e6 x) = some r) : ∃ p n, Rounds a p n r := by
  obtain ⟨p, hp, rfl⟩ := exists_product hx hr
  refine ⟨p, Quantity.roundHalfAway p, ?_, abs_roundHalfAway_sub_le p, ?_⟩
  · exact (approximates_mul hx value?_million).abs_sub_le hp
  · have herror := abs_rounded_sub_le (Quantity.roundHalfAway p / 1000000)
    generalize (Quantity.roundHalfAway p : Rat) = n at *
    have hscaled : rounded (n / 1000000) * 1000000 - n =
        (rounded (n / 1000000) - n / 1000000) * 1000000 := by ring
    rw [abs_div_million] at herror
    rw [hscaled, abs_mul_million]
    linarith

theorem exists_value?_roundTo (hx : Quantity.value? x = some a) (ha : |a| ≤ 10 ^ 64) :
    ∃ r, Quantity.value? (Quantity.roundTo 1e6 x) = some r := by
  have hproduct : |a * 1000000| ≤ 2 ^ (1023 : Int) := by
    rw [abs_mul_million]
    calc |a| * 1000000 ≤ 10 ^ 64 * 1000000 := by gcongr
      _ ≤ 2 ^ (240 : Int) := by norm_num
      _ ≤ 2 ^ (1023 : Int) := zpow_le_zpow_right₀ (by norm_num) (by decide)
  obtain ⟨p, hp⟩ := (approximates_mul hx value?_million).value? hproduct
  exact ⟨_, value?_roundTo hp⟩

namespace Rounds

variable {b d : Rat} {n z : Int}

theorem product_le (h : Rounds a p n r) :
    |p - a * 1000000| ≤ |a| * (1000000 / 2 ^ 53) + 1 / 2 ^ 40 := by
  have hleast : (2 : Rat) ^ (-1075 : Int) ≤ 1 / 2 ^ 40 := by
    calc (2 : Rat) ^ (-1075 : Int) ≤ 2 ^ (-40 : Int) :=
          zpow_le_zpow_right₀ (by norm_num) (by decide)
      _ = 1 / 2 ^ 40 := by norm_num
  have hproduct := h.product
  rw [abs_mul_million] at hproduct
  generalize (2 : Rat) ^ (-1075 : Int) = least at hproduct hleast
  linarith

/-- How large the number is that is divided. -/
theorem abs_whole_le (h : Rounds a p n r) : |(n : Rat)| ≤ |a| * (1000000 + 1) + 1 := by
  have hproduct := abs_le.mp h.product_le
  have hwhole := abs_le.mp h.whole
  have ha := abs_nonneg a
  rw [abs_le]
  constructor <;> linarith [le_abs_self a, neg_abs_le a]

/-- The errors of all steps add up to less than a millionth, or to a small part of the number. -/
theorem near (h : Rounds a p n r) (hz : |z - r * 1000000| ≤ 1 / 2)
    (hd : |d - z / 1000000| ≤ 1) (hexact : z.natAbs < 10 ^ 61 → d = z / 1000000)
    (hb : |b - d| ≤ |d| / 2 ^ 53) : |a - b| ≤ max (1 / 10 ^ 6) (|a| / 10 ^ 12) := by
  have hproduct := abs_le.mp h.product_le
  have hwhole := abs_le.mp h.whole
  have hn := h.abs_whole_le
  have hquotient := h.quotient
  rcases lt_or_ge |a| (2 ^ 40 / 1000000) with hsmall | hlarge
  · -- The quotient is so near to the whole number that it is written as that number.
    have hn : |(n : Rat)| < 2 ^ 41 := by linarith
    have heq : z = n := by
      have hnear : |(z : Rat) - n| < 1 := by
        have hsum := abs_sub_le (z : Rat) (r * 1000000) n
        linarith
      have hnear : |z - n| < 1 := by exact_mod_cast hnear
      exact sub_eq_zero.mp (Int.abs_lt_one_iff.mp hnear)
    subst heq
    have hd : d = z / 1000000 := hexact <| by
      have hlt : |z| < 2 ^ 41 := by exact_mod_cast hn
      rw [Int.abs_eq_natAbs] at hlt
      have hlt : z.natAbs < 2 ^ 41 := by exact_mod_cast hlt
      exact hlt.trans (by norm_num)
    have hb := abs_le.mp hb
    refine le_max_of_le_left ?_
    have hdn : |d| ≤ 2 ^ 41 / 1000000 := by
      rw [hd, abs_div_million]
      linarith
    rw [abs_le]
    constructor <;> linarith
  · refine le_max_of_le_right ?_
    have hquotient := abs_le.mp hquotient
    have hz := abs_le.mp hz
    have hzn : |(z : Rat)| ≤ |a| * (1000000 + 2) + 2 := by
      rw [abs_le]
      have hn := abs_le.mp hn
      constructor <;> linarith
    have hdz : |d - z / 1000000| ≤ |a| / 2 ^ 45 := by
      rcases lt_or_ge z.natAbs (10 ^ 61) with hfew | hmany
      · rw [hexact hfew, sub_self, abs_zero]
        positivity
      · have hmany : (10 : Rat) ^ 61 ≤ |(z : Rat)| := by
          rw [← Int.cast_abs, Int.abs_eq_natAbs]
          exact_mod_cast hmany
        linarith
    have hdz' := abs_le.mp hdz
    have hdabs : |d| ≤ |a| * 2 := by
      have hz := abs_le.mp hzn
      rw [abs_le]
      constructor <;> linarith
    have hb := abs_le.mp hb
    rw [abs_le]
    constructor <;> linarith

/-- A number that lost a digit before its point is far off. -/
theorem not_near (h : Rounds a p n r) (hz : |z - r * 1000000| ≤ 1 / 2)
    (hd : 10 * |d| ≤ |(z : Rat)| / 1000000) (hb : |b - d| ≤ |d| / 2 ^ 53) (ha : 1 ≤ |a|) :
    ¬|a - b| ≤ max (1 / 10 ^ 6) (|a| / 10 ^ 12) := by
  have hn := h.abs_whole_le
  have hquotient := h.quotient
  have hzabs : |(z : Rat)| ≤ |a| * 2000000 := by
    have hsum := abs_sub_le (z : Rat) (r * 1000000) n
    have hsum' := abs_sub_abs_le_abs_sub (z : Rat) n
    linarith
  have hbabs : |b| ≤ |a| / 4 := by
    have hsum := abs_sub_abs_le_abs_sub b d
    linarith [abs_nonneg d]
  have hrest := abs_sub_abs_le_abs_sub a b
  rw [not_le, max_lt_iff]
  constructor <;> linarith

end Rounds

/-! ### Numbers of many digits -/

/-- What rounding to six places makes of a number that is not very small. -/
def sixPlaces (a : Rat) : Rat := rounded (Quantity.roundHalfAway (rounded (a * 1000000)) / 1000000)

theorem sixPlaces_neg (a : Rat) : sixPlaces (-a) = -sixPlaces a := by
  rw [sixPlaces, neg_mul, rounded_neg, roundHalfAway_neg, Int.cast_neg, neg_div, rounded_neg,
    sixPlaces]

theorem sixPlaces_mono {b : Rat} (ha : 0 ≤ a) (hab : a ≤ b) : sixPlaces a ≤ sixPlaces b := by
  have hwhole : Quantity.roundHalfAway (rounded (a * 1000000)) ≤
      Quantity.roundHalfAway (rounded (b * 1000000)) :=
    roundHalfAway_mono_of_nonneg (rounded_nonneg (by positivity)) (rounded_mono (by gcongr))
  rw [sixPlaces, sixPlaces]
  refine rounded_mono ?_
  gcongr

theorem eq_sixPlaces (hx : Quantity.value? x = some a) (ha : 1 ≤ |a|)
    (hr : Quantity.value? (Quantity.roundTo 1e6 x) = some r) : r = sixPlaces a := by
  obtain ⟨p, hp, rfl⟩ := exists_product hx hr
  have hattains := (approximates_mul hx value?_million).attains_of_le (by
    rw [abs_mul_million]
    calc (2 : Rat) ^ (-1022 : Int) ≤ 2 ^ (0 : Int) :=
          zpow_le_zpow_right₀ (by norm_num) (by decide)
      _ ≤ |a| * 1000000 := by
          rw [zpow_zero]
          linarith)
  have hvalue : p = rounded (a * 1000000) := by
    obtain ⟨hfinite, rfl⟩ := value?_eq_some.mp hp
    generalize unpacked (x * 1e6) = u at hattains hfinite
    cases hattains with
    | finite _ hvalue _ => exact hvalue
    | above => cases hfinite
    | below => cases hfinite
  rw [sixPlaces, ← hvalue]

theorem sixPlaces_nonneg (ha : 0 ≤ a) : 0 ≤ sixPlaces a := by
  have hzero : sixPlaces 0 = 0 := by decide +kernel
  exact hzero ▸ sixPlaces_mono le_rfl ha

theorem abs_sixPlaces (a : Rat) : |sixPlaces a| = sixPlaces |a| := by
  rcases le_total 0 a with h | h
  · rw [abs_of_nonneg h, abs_of_nonneg (sixPlaces_nonneg h)]
  · rw [abs_of_nonpos h, sixPlaces_neg, abs_of_nonpos]
    rw [← neg_neg a, sixPlaces_neg]
    exact neg_nonpos.mpr (sixPlaces_nonneg (neg_nonneg.mpr h))

/-- The last multiple of a power of two that is not above a power of ten, and the next one. -/
def lastBelow (k s : Nat) : Rat := (10 ^ k / 2 ^ s : Nat) * 2 ^ s

def firstAbove (k s : Nat) : Rat := (10 ^ k / 2 ^ s + 1 : Nat) * 2 ^ s

/-- No number of binary64 is between the two multiples, and rounding to six places keeps both. -/
structure Edge (k s : Nat) : Prop where
  full : 2 ^ (52 + s) ≤ lastBelow k s
  lt : lastBelow k s < 10 ^ k
  last : sixPlaces (lastBelow k s) = lastBelow k s
  first : sixPlaces (firstAbove k s) = firstAbove k s

theorem edge_62 : Edge 62 153 :=
  ⟨by decide +kernel, by decide +kernel, by decide +kernel, by decide +kernel⟩

theorem edge_63 : Edge 63 157 :=
  ⟨by decide +kernel, by decide +kernel, by decide +kernel, by decide +kernel⟩

namespace Edge

variable {k s : Nat}

theorem lt_firstAbove (k s : Nat) : (10 : Rat) ^ k < firstAbove k s := by
  have hlt : 10 ^ k < (10 ^ k / 2 ^ s + 1) * 2 ^ s :=
    Nat.lt_mul_of_div_lt (Nat.lt_succ_self _) (by positivity)
  rw [firstAbove]
  exact_mod_cast hlt

variable (h : Edge k s)

include h

theorem abs_le_or_le_abs (hx : Quantity.value? x = some a) :
    |a| ≤ lastBelow k s ∨ firstAbove k s ≤ |a| := by
  rcases le_or_gt |a| (2 ^ (52 + s)) with hfew | hmany
  · exact Or.inl (hfew.trans h.full)
  · obtain ⟨n, rfl⟩ := exists_multiple_of_value? hx s hmany.le
    have habs : |(n : Rat) * 2 ^ s| = n.natAbs * 2 ^ s := by
      rw [abs_mul, abs_of_pos (by positivity : (0 : Rat) < 2 ^ s), ← Int.cast_abs,
        Int.abs_eq_natAbs, Int.cast_natCast]
    rw [habs, lastBelow, firstAbove]
    rcases Nat.lt_or_ge (10 ^ k / 2 ^ s) n.natAbs with hlt | hge
    · right
      gcongr
      exact hlt
    · left
      gcongr

theorem abs_roundTo_le (hx : Quantity.value? x = some a)
    (hr : Quantity.value? (Quantity.roundTo 1e6 x) = some r) (ha : |a| < 10 ^ k) :
    |r| ≤ lastBelow k s := by
  have hle : |a| ≤ lastBelow k s :=
    (h.abs_le_or_le_abs hx).resolve_right (not_le.mpr (ha.trans (lt_firstAbove k s)))
  rcases lt_or_ge |a| 1 with hsmall | hlarge
  · obtain ⟨p, n, hrounds⟩ := exists_rounds hx hr
    have hfour : (4 : Rat) ≤ lastBelow k s := by
      refine le_trans ?_ h.full
      calc (4 : Rat) = 2 ^ 2 := by norm_num
        _ ≤ 2 ^ (52 + s) := pow_le_pow_right₀ (by norm_num) (by omega)
    have hquotient := hrounds.quotient
    have hsum := abs_sub_abs_le_abs_sub (r * 1000000) n
    rw [abs_mul_million] at hsum
    linarith [hrounds.abs_whole_le]
  · rw [eq_sixPlaces hx hlarge hr, abs_sixPlaces, ← h.last]
    exact sixPlaces_mono (abs_nonneg a) hle

theorem le_abs_roundTo (hx : Quantity.value? x = some a)
    (hr : Quantity.value? (Quantity.roundTo 1e6 x) = some r) (ha : 10 ^ k ≤ |a|) :
    10 ^ k ≤ |r| := by
  have hle : firstAbove k s ≤ |a| :=
    (h.abs_le_or_le_abs hx).resolve_left (not_le.mpr (h.lt.trans_le ha))
  rw [eq_sixPlaces hx ((one_le_pow₀ (by norm_num)).trans ha) hr, abs_sixPlaces]
  calc (10 : Rat) ^ k ≤ firstAbove k s := (lt_firstAbove k s).le
    _ = sixPlaces (firstAbove k s) := h.first.symm
    _ ≤ sixPlaces |a| := sixPlaces_mono ((by positivity : (0 : Rat) ≤ 10 ^ k).trans
        (lt_firstAbove k s).le) hle

end Edge

end MusicPart.Binary64
