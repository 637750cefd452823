import Mathlib
import MusicPart.Numeral.SixPlaces

/-!
# Decimal texts

A number with six places is written as a decimal text: a sign, digits, and digits behind a point.
Cutting such a text and trimming zeros leave one, and its value stays the same but for what is cut
away. A decimal text is read, to its end, as the numeral that its digits make.
-/

namespace MusicPart

/-! ### Digits -/

namespace Text

theorem isDigit_iff {b : UInt8} : isDigit b = true ↔ 48 ≤ b.toNat ∧ b.toNat ≤ 57 := by
  simp [isDigit, UInt8.le_iff_toNat_le]

theorem lowerByte_digit {b : UInt8} (h : isDigit b = true) : lowerByte b = b := by
  have hb := isDigit_iff.mp h
  have hupper : isUpper b = false := by
    simp [isUpper, UInt8.le_iff_toNat_le]
    omega
  rw [lowerByte, hupper]
  rfl

theorem isSpace_digit {b : UInt8} (h : isDigit b = true) : isSpace b = false := by
  have hb := isDigit_iff.mp h
  simp [isSpace, UInt8.le_iff_toNat_le, ← UInt8.toNat_inj]
  omega

theorem ne_of_digit {b c : UInt8} (h : isDigit b = true) (hc : isDigit c = false) : b ≠ c := by
  rintro rfl
  simp [h] at hc

theorem byte_digit {c : Char} (h : c.isDigit = true) :
    isDigit (byte c) = true ∧ digitValue (byte c) = c.toNat - 48 := by
  simp only [Char.isDigit, ge_iff_le, Bool.and_eq_true, decide_eq_true_eq] at h
  obtain ⟨hlow, hhigh⟩ := h
  have hlow : 48 ≤ c.toNat := hlow
  have hhigh : c.toNat ≤ 57 := hhigh
  have hbyte : (byte c).toNat = c.toNat := by
    change c.toNat % 256 = c.toNat
    omega
  exact ⟨isDigit_iff.mpr (by omega), by rw [digitValue, hbyte]⟩

theorem isDigit_of_mem_ofNat {n : Nat} {b : UInt8} (h : b ∈ ofNat n) : isDigit b = true := by
  obtain ⟨c, hc, rfl⟩ := List.mem_map.mp h
  exact (byte_digit (Nat.isDigit_of_mem_toDigits (by decide) (by decide) hc)).1

theorem ofNat_ne_nil (n : Nat) : ofNat n ≠ [] := by
  rw [ofNat, Ne, List.map_eq_nil_iff]
  exact Nat.toDigits_ne_nil

theorem length_ofNat_le {n k : Nat} (hk : 0 < k) (h : n < 10 ^ k) : (ofNat n).length ≤ k := by
  rw [ofNat, List.length_map]
  exact (Nat.length_toDigits_le_iff (by decide) hk).mpr h

theorem foldl_byte {cs : List Char} (h : ∀ c ∈ cs, c.isDigit = true) (n : Nat) :
    (cs.map byte).foldl (fun n b => 10 * n + digitValue b) n = Nat.ofDigitChars 10 cs n := by
  induction cs generalizing n with
  | nil => rfl
  | cons c cs ih =>
      rw [List.map_cons, List.foldl_cons, Nat.ofDigitChars_cons, (byte_digit (h c (by simp))).2]
      exact ih (fun c' hc' => h c' (by simp [hc'])) _

theorem digitsValue_ofNat (n : Nat) : digitsValue (ofNat n) = n := by
  have hdigits : ∀ c ∈ Nat.toDigits 10 n, c.isDigit = true := fun c hc =>
    Nat.isDigit_of_mem_toDigits (by decide) (by decide) hc
  rw [digitsValue, ofNat, foldl_byte hdigits, Nat.ofDigitChars_ten_toDigits]

theorem digitsValue_concat (t : Text) (b : UInt8) :
    digitsValue (t ++ [b]) = 10 * digitsValue t + digitValue b := by
  rw [digitsValue, List.foldl_append]
  rfl

theorem digitsValue_append (s t : Text) :
    digitsValue (s ++ t) = digitsValue s * 10 ^ t.length + digitsValue t := by
  induction t using List.reverseRecOn with
  | nil => simp [digitsValue]
  | append_singleton t b ih =>
      rw [← List.append_assoc, digitsValue_concat, ih, digitsValue_concat, List.length_append,
        List.length_singleton, pow_succ]
      ring

theorem digitsValue_replicate_zero (k : Nat) : digitsValue (List.replicate k (byte '0')) = 0 := by
  induction k with
  | zero => rfl
  | succ k ih =>
      rw [List.replicate_succ', digitsValue_concat, ih]
      decide

theorem digitsValue_lt {t : Text} (h : ∀ b ∈ t, isDigit b = true) :
    digitsValue t < 10 ^ t.length := by
  induction t using List.reverseRecOn with
  | nil => decide
  | append_singleton t b ih =>
      have hb := isDigit_iff.mp (h b (by simp))
      have ht := ih fun b hb => h b (by simp [hb])
      rw [digitsValue_concat, digitValue, List.length_append, List.length_singleton, pow_succ]
      omega

theorem ofNat_mul_pow {n : Nat} (h : 0 < n) (k : Nat) :
    ofNat (n * 10 ^ k) = ofNat n ++ List.replicate k (byte '0') := by
  induction k with
  | zero => simp
  | succ k ih =>
      have hpos : 0 < n * 10 ^ k := by positivity
      have hdigits := Nat.toDigits_append_toDigits (b := 10) (d := 0) (by decide) hpos (by decide)
      rw [Nat.toDigits_zero, add_zero] at hdigits
      rw [pow_succ, ← mul_assoc, mul_comm _ 10, List.replicate_succ', ← List.append_assoc, ← ih,
        ofNat, ← hdigits, List.map_append]
      rfl

/-! ### Cutting -/

theorem span_of_forall {p : UInt8 → Bool} {t rest : Text} (h : ∀ b ∈ t, p b = true)
    (hrest : ∀ b ∈ rest.head?, p b = false) : (t ++ rest).span p = (t, rest) := by
  rw [List.span_eq_takeWhile_dropWhile, List.takeWhile_append_of_pos h,
    List.dropWhile_append_of_pos h]
  cases rest with
  | nil => simp
  | cons b rest => simp [hrest b rfl]

theorem span_all {p : UInt8 → Bool} {t : Text} (h : ∀ b ∈ t, p b = true) : t.span p = (t, []) := by
  have hnil : ∀ b ∈ ([] : Text).head?, p b = false := by simp
  simpa using span_of_forall h hnil

theorem cutAt?_append {sep : UInt8} {t : Text} (h : sep ∉ t) (rest : Text) :
    cutAt? sep (t ++ sep :: rest) = some (t, rest) := by
  have hspan : (t ++ sep :: rest).span (· != sep) = (t, sep :: rest) := by
    refine span_of_forall (fun b hb => ?_) (by simp)
    exact bne_iff_ne.mpr fun hsep => h (hsep ▸ hb)
  rw [cutAt?, hspan]

theorem of_dropWhile_eq_cons {p : UInt8 → Bool} {b : UInt8} {t rest : Text}
    (h : t.dropWhile p = b :: rest) : p b = false := by
  have hhead := List.head?_dropWhile_not p t
  rw [h] at hhead
  exact hhead

theorem cutAt?_eq_some_iff {sep : UInt8} {t before after : Text} :
    cutAt? sep t = some (before, after) ↔ t = before ++ sep :: after ∧ sep ∉ before := by
  constructor
  · intro h
    rw [cutAt?, List.span_eq_takeWhile_dropWhile] at h
    split at h
    · rename_i b rest hspan
      cases h
      obtain ⟨rfl, hrest⟩ := Prod.mk.inj hspan
      have hhead : b = sep := by simpa using of_dropWhile_eq_cons hrest
      refine ⟨?_, fun hmem => ?_⟩
      · rw [← hhead, ← hrest, hhead, List.takeWhile_append_dropWhile]
      · have hsep := List.mem_takeWhile_imp hmem
        simp at hsep
    · cases h
  · rintro ⟨rfl, hsep⟩
    exact cutAt?_append hsep after

theorem dropWhile_eq_self_of_head {p : UInt8 → Bool} {t : Text}
    (h : ∀ b ∈ t.head?, p b = false) : t.dropWhile p = t := by
  cases t with
  | nil => rfl
  | cons b t => exact List.dropWhile_cons_of_neg (by simp [h b rfl])

theorem strip_eq_self {p : UInt8 → Bool} {t : Text} (h : t.any p = false) : strip p t = t := by
  have hnone : ∀ b ∈ t, p b = false := by simpa using h
  have hhead : ∀ b ∈ t.head?, p b = false := fun b hb => hnone b (List.mem_of_mem_head? hb)
  have hlast : ∀ b ∈ t.reverse.head?, p b = false := fun b hb =>
    hnone b (List.mem_reverse.mp (List.mem_of_mem_head? hb))
  rw [strip, dropWhile_eq_self_of_head hhead, dropEndWhile, dropWhile_eq_self_of_head hlast,
    List.reverse_reverse]

theorem dropEndWhile_append_cons {p : UInt8 → Bool} {b : UInt8} (hb : p b = false) (s t : Text) :
    dropEndWhile p (s ++ b :: t) = s ++ b :: dropEndWhile p t := by
  have hblock : (b :: s.reverse).dropWhile p = b :: s.reverse := by simp [hb]
  rw [dropEndWhile, List.reverse_append, List.reverse_cons, List.append_assoc,
    List.singleton_append, List.dropWhile_append, hblock, dropEndWhile]
  split_ifs with h
  · rw [List.isEmpty_iff.mp h]
    simp
  · simp

theorem mem_of_mem_dropEndWhile {p : UInt8 → Bool} {b : UInt8} {t : Text}
    (h : b ∈ dropEndWhile p t) : b ∈ t := by
  rw [dropEndWhile, List.mem_reverse] at h
  exact List.mem_reverse.mp ((List.dropWhile_sublist p).subset h)

theorem length_dropEndWhile_le (p : UInt8 → Bool) (t : Text) :
    (dropEndWhile p t).length ≤ t.length := by
  have hkept := (List.dropWhile_sublist (l := t.reverse) p).length_le
  rw [dropEndWhile, List.length_reverse]
  rwa [List.length_reverse] at hkept

theorem exists_dropEndWhile_append (c : UInt8) (t : Text) :
    ∃ k, t = dropEndWhile (· == c) t ++ List.replicate k c := by
  refine ⟨(t.reverse.takeWhile (· == c)).length, ?_⟩
  have hdropped : t.reverse.takeWhile (· == c) =
      List.replicate (t.reverse.takeWhile (· == c)).length c := by
    refine List.eq_replicate_iff.mpr ⟨rfl, fun b hb => ?_⟩
    simpa using List.mem_takeWhile_imp hb
  have hsplit := congrArg List.reverse
    (List.takeWhile_append_dropWhile (p := (· == c)) (l := t.reverse))
  rw [List.reverse_append, List.reverse_reverse, hdropped, List.reverse_replicate] at hsplit
  exact hsplit.symm

end Text

open Text

/-! ### Reading -/

namespace Numeral

/-- Digits that may have a sign before them and a point with more digits behind them. -/
structure Decimal where
  negative : Bool
  whole : Text
  fraction : Text
  whole_ne_nil : whole ≠ []
  whole_digits : ∀ b ∈ whole, isDigit b = true
  fraction_digits : ∀ b ∈ fraction, isDigit b = true

namespace Decimal

def behindPoint : Text → Text
  | [] => []
  | b :: t => byte '.' :: b :: t

def unsigned (d : Decimal) : Text := d.whole ++ behindPoint d.fraction

def text (d : Decimal) : Text := withSign d.negative d.unsigned

def numeral (d : Decimal) : Numeral :=
  .decimal d.negative (digitsValue (d.whole ++ d.fraction)) (-d.fraction.length)

/-- The text of a whole number. -/
def ofInt (n : Int) : Decimal where
  negative := n < 0
  whole := ofNat n.natAbs
  fraction := []
  whole_ne_nil := ofNat_ne_nil _
  whole_digits := fun _ => isDigit_of_mem_ofNat
  fraction_digits := by simp

variable (d : Decimal)

theorem exists_unsigned_eq : ∃ b t, isDigit b = true ∧ d.unsigned = b :: t := by
  obtain ⟨b, whole, hwhole⟩ := List.exists_cons_of_ne_nil d.whole_ne_nil
  refine ⟨b, whole ++ behindPoint d.fraction, d.whole_digits b (by simp [hwhole]), ?_⟩
  rw [unsigned, hwhole, List.cons_append]

theorem mem_unsigned {b : UInt8} (h : b ∈ d.unsigned) : isDigit b = true ∨ b = byte '.' := by
  rw [unsigned, List.mem_append] at h
  rcases h with h | h
  · exact .inl (d.whole_digits b h)
  · cases hf : d.fraction with
    | nil => simp [hf, behindPoint] at h
    | cons c t =>
        rw [hf, behindPoint, List.mem_cons] at h
        exact h.elim .inr fun h => .inl (d.fraction_digits b (hf ▸ h))

/-- A text that does not go on with the digits of a decimal or turn them into others. -/
def Ends (rest : Text) : Prop :=
  ∀ b ∈ rest.head?, isDigit b = false ∧ b ≠ byte '.' ∧ lowerByte b ≠ byte 'x'

theorem places_unsigned_append {rest : Text} (h : Ends rest) :
    places isDigit (d.unsigned ++ rest) = (d.whole, d.fraction, rest) := by
  have hdigit : ∀ b ∈ rest.head?, isDigit b = false := fun b hb => (h b hb).1
  cases hf : d.fraction with
  | nil =>
      rw [unsigned, hf, behindPoint, List.append_nil, places, span_of_forall d.whole_digits hdigit]
      cases rest with
      | nil => rfl
      | cons b rest =>
          have hpoint : (b == byte '.') = false := beq_false_of_ne (h b rfl).2.1
          simp only [hpoint, Bool.false_eq_true, if_false]
  | cons b t =>
      have hpoint : isDigit (byte '.') = false := by decide
      have hspan : (d.whole ++ byte '.' :: (b :: t ++ rest)).span isDigit =
          (d.whole, byte '.' :: (b :: t ++ rest)) :=
        span_of_forall d.whole_digits (by simp [hpoint])
      rw [unsigned, hf, behindPoint, List.append_assoc, List.cons_append, places, hspan]
      simp only [beq_self_eq_true, if_true, span_of_forall (hf ▸ d.fraction_digits) hdigit]

theorem hexadecimal?_unsigned_append (negative : Bool) {rest : Text} (h : Ends rest) :
    hexadecimal? negative (d.unsigned ++ rest) = none := by
  obtain ⟨b, t, -, ht⟩ := d.exists_unsigned_eq
  cases hmore : t ++ rest with
  | nil => rw [ht, List.cons_append, hmore, hexadecimal?.eq_def]
  | cons mark t' =>
      -- The byte behind the first digit is part of the decimal or the first one of the rest.
      have hmark : lowerByte mark ≠ byte 'x' := by
        cases t with
        | nil => exact (h mark (by rw [← List.nil_append rest, hmore]; rfl)).2.2
        | cons c t =>
            cases hmore
            rcases d.mem_unsigned (b := mark) (by simp [ht]) with hdigit | rfl
            · rw [lowerByte_digit hdigit]
              exact ne_of_digit hdigit (by decide)
            · decide
      rw [ht, List.cons_append, hmore, hexadecimal?]
      simp [hmark]

theorem decimal?_unsigned_append (negative : Bool) {rest : Text} (h : Ends rest) :
    decimal? negative (d.unsigned ++ rest) =
      some (.decimal negative (digitsValue (d.whole ++ d.fraction))
        ((scale (byte 'e') rest).1 - d.fraction.length), (scale (byte 'e') rest).2) := by
  have hwhole : d.whole.isEmpty = false := by simpa using d.whole_ne_nil
  simp [decimal?, d.places_unsigned_append h, hwhole]

theorem sign_text_append (rest : Text) :
    sign ((d.text ++ rest).dropWhile isSpace) = (d.negative, d.unsigned ++ rest) := by
  obtain ⟨b, t, hb, ht⟩ := d.exists_unsigned_eq
  rw [text]
  cases d.negative with
  | true =>
      have hminus : isSpace (byte '-') = false := by decide
      simp [withSign, hminus, sign]
  | false =>
      have hminus : b ≠ byte '-' := ne_of_digit hb (by decide)
      have hplus : b ≠ byte '+' := ne_of_digit hb (by decide)
      simp [withSign, ht, isSpace_digit hb, hminus, hplus, sign]

/-- A decimal text with an exponent or without one is read to the end of the exponent. -/
theorem read?_text_append {rest : Text} (h : Ends rest) : read? (d.text ++ rest) =
    some (.decimal d.negative (digitsValue (d.whole ++ d.fraction))
      ((scale (byte 'e') rest).1 - d.fraction.length), (scale (byte 'e') rest).2) := by
  rw [read?, sign_text_append]
  simp only [d.hexadecimal?_unsigned_append _ h, d.decimal?_unsigned_append _ h]
  rfl

/-- A decimal text is one numeral to its end. -/
theorem read?_text : read? d.text = some (d.numeral, []) := by
  have hread := d.read?_text_append (show Ends [] by simp [Ends])
  rwa [List.append_nil, scale, zero_sub] at hread

theorem finite?_text {α : Type} [Quantity α] : (finite? d.text : Option α) =
    (some (signed d.negative (OfScientific.ofScientific (digitsValue (d.whole ++ d.fraction))
      (-(d.fraction.length : Int) < 0) d.fraction.length))).filter Quantity.isFinite := by
  rw [finite?, whole?, start?, read?_text]
  simp [numeral, value?]

/-! ### Values -/

/-- The number of digits before and behind a point. -/
def placesValue (whole fraction : Text) : Rat :=
  digitsValue (whole ++ fraction) / 10 ^ fraction.length

theorem placesValue_eq (whole fraction : Text) : placesValue whole fraction =
    digitsValue whole + digitsValue fraction / 10 ^ fraction.length := by
  rw [placesValue, digitsValue_append]
  push_cast
  field_simp

theorem placesValue_dropEndWhile (whole fraction : Text) :
    placesValue whole (dropEndWhile (· == byte '0') fraction) = placesValue whole fraction := by
  obtain ⟨k, hk⟩ := exists_dropEndWhile_append (byte '0') fraction
  generalize dropEndWhile (· == byte '0') fraction = kept at hk ⊢
  rw [hk, placesValue_eq, placesValue_eq, digitsValue_append, digitsValue_replicate_zero,
    List.length_append, List.length_replicate, pow_add]
  push_cast
  field_simp
  ring

/-- The digits behind a point make less than one. -/
theorem placesValue_mem (whole fraction : Text) (h : ∀ b ∈ fraction, isDigit b = true) :
    (digitsValue whole : Rat) ≤ placesValue whole fraction ∧
      placesValue whole fraction < digitsValue whole + 1 := by
  have hlt : (digitsValue fraction : Rat) < 10 ^ fraction.length := by
    exact_mod_cast digitsValue_lt h
  have hbelow : (digitsValue fraction : Rat) / 10 ^ fraction.length < 1 :=
    (div_lt_one (by positivity)).mpr hlt
  rw [placesValue_eq]
  exact ⟨le_add_of_nonneg_right (by positivity), by linarith⟩

/-- The number that a decimal text stands for. -/
def value (d : Decimal) : Rat :=
  if d.negative then -placesValue d.whole d.fraction else placesValue d.whole d.fraction

theorem abs_value (d : Decimal) : |d.value| = placesValue d.whole d.fraction := by
  have hnonneg : 0 ≤ placesValue d.whole d.fraction := by
    rw [placesValue]
    positivity
  rw [value]
  split
  · rw [abs_neg, abs_of_nonneg hnonneg]
  · exact abs_of_nonneg hnonneg

end Decimal

end Numeral

/-! ### Writing -/

namespace SixPlaces

open Numeral Decimal

theorem trimZeros_of_not_mem {t : Text} (h : byte '.' ∉ t) : trimZeros t = t := by
  rw [trimZeros, if_neg]
  simpa using h

theorem trimZeros_point (s : Text) {fraction : Text} (h : ∀ b ∈ fraction, isDigit b = true) :
    trimZeros (s ++ byte '.' :: fraction) =
      s ++ behindPoint (dropEndWhile (· == byte '0') fraction) := by
  have hpoint : ((s ++ byte '.' :: fraction).contains (byte '.')) = true := by simp
  have hzero : (byte '.' == byte '0') = false := by decide
  rw [trimZeros, if_pos hpoint, dropEndWhile_append_cons (p := (· == byte '0')) hzero]
  cases hkept : dropEndWhile (· == byte '0') fraction using List.reverseRecOn with
  | nil => simp [behindPoint]
  | append_singleton t b =>
      have hmem : b ∈ dropEndWhile (· == byte '0') fraction := by simp [hkept]
      have hlast : b ≠ byte '.' := ne_of_digit (h b (mem_of_mem_dropEndWhile hmem)) (by decide)
      have hshape : behindPoint (t ++ [b]) = byte '.' :: (t ++ [b]) := by cases t <;> rfl
      have hend : (s ++ byte '.' :: (t ++ [b])).getLast? = some b := by
        rw [← List.cons_append, ← List.append_assoc, List.getLast?_concat]
      simp [hshape, hend, hlast]

theorem withSign_append (negative : Bool) (s t : Text) :
    withSign negative (s ++ t) = withSign negative s ++ t := by
  cases negative <;> rfl

theorem point_not_mem_withSign {negative : Bool} {t : Text} (h : ∀ b ∈ t, isDigit b = true) :
    byte '.' ∉ withSign negative t := by
  have hpoint : byte '.' ∉ t := fun hmem => absurd (h _ hmem) (by decide)
  have hminus : byte '.' ≠ byte '-' := by decide
  cases negative <;> simp [withSign, hpoint, hminus]

/-- The bytes that a text has room for behind its sign. -/
def room (negative : Bool) : Nat := if negative then 62 else 63

theorem take_capacity (negative : Bool) (t : Text) :
    (withSign negative t).take capacity = withSign negative (t.take (room negative)) := by
  cases negative <;> rfl

/-- Digits filled up with zeros on the left, so that there is one before the last six. -/
def padded (n : Nat) : Text := List.replicate (7 - (ofNat n).length) (byte '0') ++ ofNat n

def wholeDigits (n : Nat) : Text := (padded n).take ((padded n).length - 6)

def lastDigits (n : Nat) : Text := (padded n).drop ((padded n).length - 6)

theorem placed_eq (n : Nat) : placed 6 (ofNat n) = wholeDigits n ++ byte '.' :: lastDigits n := rfl

theorem isDigit_of_mem_padded {n : Nat} {b : UInt8} (h : b ∈ padded n) : isDigit b = true := by
  rcases List.mem_append.mp h with h | h
  · rw [List.eq_of_mem_replicate h]
    decide
  · exact isDigit_of_mem_ofNat h

theorem isDigit_of_mem_wholeDigits {n : Nat} {b : UInt8} (h : b ∈ wholeDigits n) :
    isDigit b = true := isDigit_of_mem_padded (List.mem_of_mem_take h)

theorem isDigit_of_mem_lastDigits {n : Nat} {b : UInt8} (h : b ∈ lastDigits n) :
    isDigit b = true := isDigit_of_mem_padded (List.mem_of_mem_drop h)

theorem length_padded (n : Nat) : (padded n).length = max 7 (ofNat n).length := by
  rw [padded, List.length_append, List.length_replicate]
  omega

theorem length_wholeDigits (n : Nat) :
    (wholeDigits n).length = max 1 ((ofNat n).length - 6) := by
  rw [wholeDigits, List.length_take, length_padded]
  omega

theorem length_lastDigits (n : Nat) : (lastDigits n).length = 6 := by
  rw [lastDigits, List.length_drop, length_padded]
  omega

/-- What a cut and the trimming of zeros leave of a number of millionths. -/
def millionths (n : Int) : Decimal where
  negative := n < 0
  whole := (wholeDigits n.natAbs).take (room (n < 0))
  fraction := dropEndWhile (· == byte '0')
    ((lastDigits n.natAbs).take (room (n < 0) - (wholeDigits n.natAbs).length - 1))
  whole_ne_nil := by
    have hlength := length_wholeDigits n.natAbs
    have hroom : 0 < room (n < 0) := by cases decide (n < 0) <;> decide
    rw [← List.length_pos_iff, List.length_take]
    omega
  whole_digits _ hb := isDigit_of_mem_wholeDigits (List.mem_of_mem_take hb)
  fraction_digits _ hb :=
    isDigit_of_mem_lastDigits (List.mem_of_mem_take (mem_of_mem_dropEndWhile hb))

theorem trimZeros_take {whole fraction : Text} (negative : Bool)
    (hwhole : ∀ b ∈ whole, isDigit b = true) (hfraction : ∀ b ∈ fraction, isDigit b = true) :
    trimZeros ((withSign negative (whole ++ byte '.' :: fraction)).take capacity) =
      withSign negative (whole.take (room negative) ++ behindPoint (dropEndWhile (· == byte '0')
        (fraction.take (room negative - whole.length - 1)))) := by
  rw [take_capacity]
  rcases lt_or_ge whole.length (room negative) with hcut | hcut
  · obtain ⟨j, hj⟩ := Nat.exists_eq_add_of_lt hcut
    have hkept : ∀ b ∈ fraction.take j, isDigit b = true :=
      fun b hb => hfraction b (List.mem_of_mem_take hb)
    have hrest : room negative - whole.length - 1 = j := by omega
    rw [hrest, List.take_of_length_le hcut.le, hj, Nat.add_assoc, List.take_length_add_append,
      List.take_succ_cons, withSign_append, trimZeros_point _ hkept, ← withSign_append]
  · have hkept : ∀ b ∈ whole.take (room negative), isDigit b = true :=
      fun b hb => hwhole b (List.mem_of_mem_take hb)
    have hrest : room negative - whole.length - 1 = 0 := by omega
    have hnone : behindPoint (dropEndWhile (· == byte '0') (fraction.take 0)) = [] := rfl
    rw [hrest, hnone, List.append_nil, List.take_append_of_le_length hcut,
      trimZeros_of_not_mem (point_not_mem_withSign hkept)]

theorem trimZeros_take_fixed (n : Int) :
    trimZeros ((fixed n).take capacity) = (millionths n).text := by
  rw [fixed, placed_eq]
  exact trimZeros_take _ (fun _ => isDigit_of_mem_wholeDigits) fun _ => isDigit_of_mem_lastDigits

theorem length_millionths (n : Int) :
    ((millionths n).whole ++ (millionths n).fraction).length ≤ capacity ∧
      (millionths n).fraction.length ≤ 6 := by
  have hpart := length_dropEndWhile_le (· == byte '0')
    ((lastDigits n.natAbs).take (room (n < 0) - (wholeDigits n.natAbs).length - 1))
  have hroom : room (n < 0) ≤ capacity := by cases decide (n < 0) <;> decide
  rw [List.length_take, length_lastDigits] at hpart
  rw [List.length_append]
  simp only [millionths, List.length_take]
  omega

theorem placesValue_digits (n : Nat) :
    placesValue (wholeDigits n) (lastDigits n) = n / 1000000 := by
  have hvalue : digitsValue (padded n) = n := by
    rw [padded, digitsValue_append, digitsValue_replicate_zero, zero_mul, zero_add,
      digitsValue_ofNat]
  rw [placesValue, length_lastDigits, wholeDigits, lastDigits, List.take_append_drop, hvalue]
  norm_num

theorem placesValue_millionths {n : Int} (h : n.natAbs < 10 ^ (6 + room (n < 0))) :
    |placesValue (millionths n).whole (millionths n).fraction - n.natAbs / 1000000| ≤ 1 ∧
      (n.natAbs < 10 ^ 61 → placesValue (millionths n).whole (millionths n).fraction =
        n.natAbs / 1000000) := by
  obtain ⟨k, hk⟩ : ∃ k, k = room (n < 0) := ⟨_, rfl⟩
  have hroom : 62 ≤ k := by rw [hk]; cases decide (n < 0) <;> decide
  have hlength := length_wholeDigits n.natAbs
  have hdigits : (ofNat n.natAbs).length ≤ 6 + k := length_ofNat_le (by omega) (hk ▸ h)
  have hvalue : placesValue (millionths n).whole (millionths n).fraction =
      placesValue (wholeDigits n.natAbs)
        ((lastDigits n.natAbs).take (k - (wholeDigits n.natAbs).length - 1)) := by
    simp only [millionths, ← hk]
    rw [placesValue_dropEndWhile, List.take_of_length_le (by omega)]
  rw [hvalue, ← placesValue_digits]
  constructor
  · obtain ⟨hlow, hhigh⟩ := placesValue_mem (wholeDigits n.natAbs) (lastDigits n.natAbs)
      fun _ => isDigit_of_mem_lastDigits
    obtain ⟨hlow', hhigh'⟩ := placesValue_mem (wholeDigits n.natAbs)
      ((lastDigits n.natAbs).take (k - (wholeDigits n.natAbs).length - 1))
      fun _ hb => isDigit_of_mem_lastDigits (List.mem_of_mem_take hb)
    rw [abs_le]
    constructor <;> linarith
  · intro hsmall
    have hfew : (ofNat n.natAbs).length ≤ 61 := length_ofNat_le (by decide) hsmall
    rw [List.take_of_length_le (by rw [length_lastDigits]; omega)]

/-- Where there is room for all digits before the point, less than one is lost, and nothing where
there is room for those behind it. -/
theorem value_millionths {n : Int} (h : n.natAbs < 10 ^ (6 + room (n < 0))) :
    |(millionths n).value - n / 1000000| ≤ 1 ∧
      (n.natAbs < 10 ^ 61 → (millionths n).value = n / 1000000) := by
  have hplaces := placesValue_millionths h
  have hnegative : (millionths n).negative = decide (n < 0) := rfl
  rw [value, hnegative]
  rcases lt_or_ge n 0 with hn | hn
  · have habs : (n : Rat) = -(n.natAbs : Rat) := by
      rw [← Int.cast_natCast, ← Int.cast_neg]
      exact congrArg Int.cast (by omega)
    rw [if_pos (decide_eq_true hn), habs, neg_div, neg_sub_neg, abs_sub_comm, neg_inj]
    exact hplaces
  · have habs : (n : Rat) = (n.natAbs : Rat) := by
      rw [← Int.cast_natCast]
      exact congrArg Int.cast (by omega)
    rw [if_neg (by simpa using hn), habs]
    exact hplaces

/-- Digits before the point that there is no room for make the number that is written at least ten
times too small. -/
theorem ten_mul_abs_value_millionths {n : Int} (h : 10 ^ (6 + room (n < 0)) ≤ n.natAbs) :
    10 * |(millionths n).value| ≤ n.natAbs / 1000000 := by
  rw [abs_value]
  obtain ⟨k, hk⟩ : ∃ k, k = room (n < 0) := ⟨_, rfl⟩
  obtain ⟨hlow, hhigh⟩ := placesValue_mem (wholeDigits n.natAbs) (lastDigits n.natAbs)
    fun _ => isDigit_of_mem_lastDigits
  rw [placesValue_digits] at hlow hhigh
  have hlong : k < (wholeDigits n.natAbs).length := by
    have hmany : 10 ^ k < digitsValue (wholeDigits n.natAbs) + 1 := by
      have hrat : (10 : Rat) ^ k ≤ n.natAbs / 1000000 := by
        rw [le_div_iff₀ (by norm_num)]
        have hpow : (10 : Rat) ^ k * 1000000 = ((10 ^ (6 + k) : Nat) : Rat) := by
          rw [pow_add]
          push_cast
          ring
        rw [hpow, hk]
        exact_mod_cast h
      exact_mod_cast hrat.trans_lt hhigh
    have hfew := digitsValue_lt fun b (hb : b ∈ wholeDigits n.natAbs) =>
      isDigit_of_mem_wholeDigits hb
    exact (Nat.pow_lt_pow_iff_right (by decide)).mp ((Nat.lt_succ_iff.mp hmany).trans_lt hfew)
  have hcut : placesValue (millionths n).whole (millionths n).fraction =
      digitsValue ((wholeDigits n.natAbs).take k) := by
    have hnone : k - (wholeDigits n.natAbs).length - 1 = 0 := by omega
    simp only [millionths, ← hk, hnone]
    rw [placesValue_dropEndWhile, placesValue_eq]
    simp [digitsValue]
  have hwhole : digitsValue ((wholeDigits n.natAbs).take k) * 10 ≤
      digitsValue (wholeDigits n.natAbs) := by
    conv => rhs; rw [← List.take_append_drop k (wholeDigits n.natAbs)]
    rw [digitsValue_append, List.length_drop]
    exact (Nat.mul_le_mul_left _ (Nat.le_self_pow (by omega) 10)).trans (Nat.le_add_right _ _)
  rw [hcut]
  refine le_trans ?_ hlow
  rw [mul_comm]
  exact_mod_cast hwhole

variable {α : Type} [Quantity α]

theorem render_eq_text {x : α} (hx : Quantity.isFinite x = true) {r : Rat}
    (hrounded : Quantity.value? (Quantity.roundTo 1e6 x) = some r) :
    render x = (millionths (Quantity.roundHalfEven (r * 1000000))).text := by
  rw [render, hx]
  simp only [Bool.not_true, Bool.false_eq_true, if_false, hrounded]
  exact trimZeros_take_fixed _

/-- A number is written as a decimal text of bounded length if rounding leaves it finite. -/
theorem exists_render_eq {x : α} (hx : Quantity.isFinite x = true)
    (hrounded : Quantity.isFinite (Quantity.roundTo 1e6 x) = true) :
    ∃ d : Decimal, render x = d.text ∧ (d.whole ++ d.fraction).length ≤ capacity ∧
      d.fraction.length ≤ 6 := by
  obtain ⟨r, hr⟩ := Option.isSome_iff_exists.mp hrounded
  exact ⟨_, render_eq_text hx hr, length_millionths _⟩

theorem placed_million (n : Nat) :
    placed 6 (ofNat (n * 10 ^ 6)) = ofNat n ++ byte '.' :: List.replicate 6 (byte '0') := by
  rcases Nat.eq_zero_or_pos n with rfl | hn
  · decide
  · have hpos := List.length_pos_iff.mpr (ofNat_ne_nil n)
    have hnone : 6 + 1 - ((ofNat n).length + 6) = 0 := by omega
    rw [ofNat_mul_pow hn, placed]
    simp [hnone]

theorem fixed_million (n : Int) : fixed (n * 1000000) =
    withSign (n < 0) (ofNat n.natAbs) ++ byte '.' :: List.replicate 6 (byte '0') := by
  have hsign : (n * 1000000 < 0) = (n < 0) := by
    rw [eq_iff_iff]
    omega
  have habs : (n * 1000000).natAbs = n.natAbs * 10 ^ 6 := by
    rw [Int.natAbs_mul]
    rfl
  rw [fixed, habs, placed_million, ← withSign_append]
  simp only [hsign]

theorem roundHalfEven_intCast (n : Int) : Quantity.roundHalfEven (n : Rat) = n := by
  simp [Quantity.roundHalfEven, Rat.floor_intCast]

/-- A number that rounds to a whole number of moderate size is written as that whole number. -/
theorem render_eq_of_value? {x : α} (hx : Quantity.isFinite x = true) {n : Int}
    (hrounded : Quantity.value? (Quantity.roundTo 1e6 x) = some (n : Rat))
    (hn : n.natAbs ≤ 10 ^ 9) : render x = (Decimal.ofInt n).text := by
  have hmillion : Quantity.roundHalfEven ((n : Rat) * 1000000) = n * 1000000 := by
    rw [← roundHalfEven_intCast (n * 1000000)]
    push_cast
    rfl
  have hzeros : ∀ b ∈ List.replicate 6 (byte '0'), isDigit b = true := by
    intro b hb
    rw [List.eq_of_mem_replicate hb]
    decide
  have hnone : dropEndWhile (· == byte '0') (List.replicate 6 (byte '0')) = [] := by decide
  have hlength : (withSign (n < 0) (ofNat n.natAbs) ++
      byte '.' :: List.replicate 6 (byte '0')).length ≤ capacity := by
    have hlt : n.natAbs < 10 ^ 10 := lt_of_le_of_lt hn (by norm_num)
    have hdigits := length_ofNat_le (by decide) hlt
    have hsign : (withSign (n < 0) (ofNat n.natAbs)).length ≤ (ofNat n.natAbs).length + 1 := by
      cases decide (n < 0) <;> simp [withSign]
    have hcapacity : capacity = 63 := rfl
    simp only [List.length_append, List.length_cons, List.length_replicate]
    omega
  rw [render, hx]
  simp only [Bool.not_true, Bool.false_eq_true, if_false, hrounded, hmillion, fixed_million,
    List.take_of_length_le hlength]
  rw [trimZeros_point _ hzeros, hnone, text, unsigned]
  simp [Decimal.ofInt, behindPoint]

end SixPlaces

end MusicPart
