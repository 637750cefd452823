import Mathlib
import MusicPart.Json.Value
import MusicPart.Midi
import MusicPart.Proofs.Signs

/-!
# Conversions to machine words

A quantity that is taken to a signed word loses its fraction, and its whole part has to fit. Where a
quantity was brought between bounds of the word before, it does.
-/

namespace MusicPart

/-- A quantity on its way to the signed word whose least value is `-half`. -/
structure Conversion (α : Type) where
  half : Int
  quantity : α

namespace Conversion

variable {α : Type}

/-- To a word of 32 bits. -/
def toInt32 (x : α) : Conversion α := ⟨0x80000000, x⟩

/-- To a word of 64 bits. -/
def toInt64 (x : α) : Conversion α := ⟨0x8000000000000000, x⟩

variable [Quantity α]

/-- The whole part, if there is one that the word can hold. -/
def result? (c : Conversion α) : Option Int :=
  ((Quantity.value? c.quantity).map Quantity.truncate).filter (Quantity.fitsWord c.half)

def Fits (c : Conversion α) : Prop := c.result?.isSome = true

instance (c : Conversion α) : Decidable c.Fits := inferInstanceAs (Decidable (_ = true))

theorem toWord_eq (c : Conversion α) :
    Quantity.toWord c.half c.quantity = c.result?.getD (-c.half) := by
  rw [Quantity.toWord, result?]
  cases (Quantity.value? c.quantity).map Quantity.truncate with
  | none => rfl
  | some n =>
      rw [Option.filter_some]
      dsimp only
      by_cases hn : Quantity.fitsWord c.half n = true
      · rw [if_pos hn, if_pos hn]
        rfl
      · rw [if_neg hn, if_neg hn]
        rfl

/-- Counting by a word gives nothing where the conversion does not fit. -/
theorem toNat_toWord_add {c : Conversion α} {k : Int} (h : k ≤ c.half) :
    (Quantity.toWord c.half c.quantity + k).toNat = c.result?.elim 0 fun n => (n + k).toNat := by
  rw [toWord_eq]
  cases c.result? with
  | none => exact Int.toNat_of_nonpos (by change -c.half + k ≤ 0; omega)
  | some n => rfl

/-- A whole part that fits is the one that is computed without a word in mind. -/
theorem Fits.result?_eq {c : Conversion α} (h : c.Fits) :
    c.result? = some (Quantity.toInt c.quantity) := by
  obtain ⟨n, hn⟩ := Option.isSome_iff_exists.mp h
  obtain ⟨hvalue, -⟩ := Option.filter_eq_some_iff.mp hn
  rw [Quantity.toInt, hvalue, hn]
  rfl

/-- So is one that fits as soon as there is one at all. -/
theorem toInt_eq_getD {c : Conversion α} (h : Quantity.isFinite c.quantity = true → c.Fits) :
    Quantity.toInt c.quantity = c.result?.getD 0 := by
  cases hvalue : Quantity.value? c.quantity with
  | none =>
      rw [Quantity.toInt, result?, hvalue]
      rfl
  | some r =>
      have hfits : c.Fits := h (by rw [Quantity.isFinite, hvalue]; rfl)
      rw [hfits.result?_eq]
      rfl

theorem result?_eq_none {c : Conversion α} (h : ¬c.Fits) : c.result? = none :=
  Option.not_isSome_iff_eq_none.mp h

end Conversion

/-! ### Whole parts -/

namespace Quantity

theorem truncate_of_nonneg {r : Rat} (h : 0 ≤ r) : truncate r = ⌊r⌋ := by
  rw [truncate, Int.tdiv_eq_ediv_of_nonneg (Rat.num_nonneg.mpr h)]
  exact (Rat.floor_def r).symm

theorem truncate_neg (r : Rat) : truncate (-r) = -truncate r := by
  rw [truncate, truncate, Rat.num_neg_eq_neg_num, Rat.den_neg_eq_den, Int.neg_tdiv]

/-- Whole bounds of a number bound its whole part too. -/
theorem truncate_mem {r : Rat} {a b : Int} (ha : (a : Rat) ≤ r) (hb : r ≤ b) :
    a ≤ truncate r ∧ truncate r ≤ b := by
  rcases le_total 0 r with hr | hr
  · rw [truncate_of_nonneg hr]
    exact ⟨Int.le_floor.mpr ha, by exact_mod_cast (Int.floor_le r).trans hb⟩
  · have hneg : truncate r = -⌊-r⌋ := by
      rw [← truncate_of_nonneg (neg_nonneg.mpr hr), truncate_neg, neg_neg]
    have hbelow : -b ≤ ⌊-r⌋ := Int.le_floor.mpr (by push_cast; linarith)
    have habove : ⌊-r⌋ ≤ -a := by
      have hfloor := (Int.floor_le (-r)).trans (neg_le_neg ha)
      exact_mod_cast hfloor
    omega

end Quantity

namespace Conversion

theorem fits_of_mem {x : Float} {half a b : Int} {r : Rat} (hr : Quantity.value? x = some r)
    (ha : (a : Rat) ≤ r) (hb : r ≤ b) (hlow : -half ≤ a) (hhigh : b < half) :
    Fits ⟨half, x⟩ := by
  obtain ⟨hra, hrb⟩ := Quantity.truncate_mem ha hb
  have hword : Quantity.fitsWord half (Quantity.truncate r) = true := by
    rw [Quantity.fitsWord, Bool.and_eq_true, decide_eq_true_eq, decide_eq_true_eq]
    exact ⟨hlow.trans hra, hrb.trans_lt hhigh⟩
  rw [Fits, result?, hr, Option.map_some, Option.filter_some, if_pos hword]
  rfl

/-- What is not below zero fits exactly if it is below the first number that does not. -/
theorem fits_iff_lt {x bound : Float} {half : Int} (hpos : 0 < half) (hx : ¬x < 0.0)
    (hbound : Quantity.value? bound = some (half : Rat)) : Fits ⟨half, x⟩ ↔ x < bound := by
  constructor
  · intro h
    obtain ⟨n, hn⟩ := Option.isSome_iff_exists.mp h
    obtain ⟨hmap, hword⟩ := Option.filter_eq_some_iff.mp hn
    obtain ⟨r, hr, rfl⟩ := Option.map_eq_some_iff.mp hmap
    rw [Quantity.fitsWord, Bool.and_eq_true, decide_eq_true_eq, decide_eq_true_eq] at hword
    rw [Binary64.lt_iff_of_value? hr Binary64.value?_zero, not_lt] at hx
    rw [Binary64.lt_iff_of_value? hr hbound]
    rw [Quantity.truncate_of_nonneg hx] at hword
    exact Int.floor_lt.mp hword.2
  · intro h
    obtain ⟨hnumber, -⟩ := Quantity.Lawful.isNumber_of_lt h
    obtain ⟨r, hr, hnonneg, -⟩ := Binary64.exists_value?_of_not_lt hnumber Binary64.value?_zero
      hbound hx (Quantity.Lawful.not_lt_of_lt h)
    rw [Binary64.lt_iff_of_value? hr hbound] at h
    have hfloor : (0 : Int) ≤ ⌊r⌋ := Int.floor_nonneg.mpr hnonneg
    have hword : Quantity.fitsWord half (Quantity.truncate r) = true := by
      rw [Quantity.fitsWord, Bool.and_eq_true, decide_eq_true_eq, decide_eq_true_eq,
        Quantity.truncate_of_nonneg hnonneg]
      exact ⟨by omega, Int.floor_lt.mpr h⟩
    rw [Fits, result?, hr, Option.map_some, Option.filter_some, if_pos hword]
    rfl

/-! ### Conversions with a guard -/

theorem value?_million : Quantity.value? (1e6 : Float) = some ((1000000 : Int) : Rat) := by
  decide +kernel

theorem value?_neg_million : Quantity.value? (-1e6 : Float) = some ((-1000000 : Int) : Rat) := by
  decide +kernel

theorem value?_largestData : Quantity.value? (127.0 : Float) = some ((127 : Int) : Rat) := by
  decide +kernel

/-- Whole numbers of a document are brought within a million. -/
theorem fits_saturated {x : Float} (hx : Quantity.IsNumber x) :
    (toInt32 (Quantity.clamp x (-1e6) 1e6)).Fits := by
  obtain ⟨r, hr, hlow, hhigh⟩ := Binary64.exists_value?_clamp hx value?_neg_million value?_million
    (by norm_num)
  exact fits_of_mem hr hlow hhigh (by decide) (by decide)

/-- Controller values are brought to data values. -/
theorem fits_data {x : Float} (hx : Quantity.IsNumber x) :
    (toInt64 (Quantity.round (Quantity.clamp x 0.0 127.0))).Fits := by
  obtain ⟨r, hr, hlow, hhigh⟩ := Binary64.exists_value?_clamp hx Binary64.value?_zero
    value?_largestData (by norm_num)
  have hround : Quantity.roundHalfAway r = ⌊r + 1 / 2⌋ := by
    rw [Quantity.roundHalfAway, if_neg (not_lt.mpr hlow)]
    rfl
  have hnonneg : 0 ≤ ⌊r + 1 / 2⌋ := Int.floor_nonneg.mpr (by linarith)
  have hle : ⌊r + 1 / 2⌋ < 128 := Int.floor_lt.mpr (by push_cast at hhigh ⊢; linarith)
  have hvalue : Quantity.value? (Quantity.round (Quantity.clamp x 0.0 127.0)) =
      some ((⌊r + 1 / 2⌋ : Int) : Rat) := by
    rw [Quantity.round, Quantity.mapWhole, hr]
    dsimp only
    rw [hround]
    exact Binary64.value?_ofInt (by omega)
  refine fits_of_mem (a := 0) (b := 127) hvalue ?_ ?_ (by decide) (by decide)
  · exact_mod_cast hnonneg
  · exact_mod_cast Int.lt_add_one_iff.mp hle

theorem isNumber_of_isFinite_clamp {x low high : Float}
    (h : Quantity.isFinite (Quantity.clamp x low high) = true) : Quantity.IsNumber x := by
  by_contra hx
  have hlow : ¬x < low := fun hlt => hx (Quantity.Lawful.isNumber_of_lt hlt).1
  have hhigh : ¬high < x := fun hlt => hx (Quantity.Lawful.isNumber_of_lt hlt).2
  rw [Quantity.clamp, if_neg hlow, if_neg hhigh] at h
  exact hx (Quantity.Lawful.isNumber_of_isFinite h)

theorem isFinite_of_isFinite_mapWhole {f : Rat → Int} {x : Float}
    (h : Quantity.isFinite (Quantity.mapWhole f x) = true) : Quantity.isFinite x = true := by
  rw [Quantity.mapWhole] at h
  split at h
  · rename_i r hr
    rw [Quantity.isFinite, hr]
    rfl
  · exact h

/-- What a document says by a number is the word that it is converted to. -/
theorem saturate_eq (x : Float) : Json.Value.saturate x =
    (toInt32 (Quantity.clamp x (-1e6) 1e6)).result?.getD 0 :=
  toInt_eq_getD (c := toInt32 _) fun h => fits_saturated (isNumber_of_isFinite_clamp h)

theorem ofQuantity_eq (x : Float) : Midi.ofQuantity x = Midi.clampData
    ((toInt64 (Quantity.round (Quantity.clamp x 0.0 127.0))).result?.getD 0) :=
  congrArg Midi.clampData <| toInt_eq_getD (c := toInt64 _) fun h =>
    fits_data (isNumber_of_isFinite_clamp (isFinite_of_isFinite_mapWhole h))

/-- A number that is not larger than a bound of the word fits, whichever its sign is. -/
theorem fits_of_not_lt_abs {x bound : Float} {b : Int} (hx : Quantity.IsNumber x)
    (hbound : Quantity.value? bound = some (b : Rat)) (hb : b < 0x80000000)
    (h : ¬bound < Quantity.abs x) : (toInt32 x).Fits := by
  obtain ⟨r, hr, hle⟩ := Binary64.exists_value?_of_not_lt_abs hx hbound h
  obtain ⟨hlow, hhigh⟩ := abs_le.mp hle
  refine fits_of_mem (a := -b) (b := b) hr ?_ hhigh ?_ hb
  · exact_mod_cast hlow
  · omega

end Conversion

end MusicPart
