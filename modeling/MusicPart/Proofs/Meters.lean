import MusicPart.Meter
import MusicPart.Proofs.Numerals

/-!
# Texts of meters

A meter is written as two whole numbers around a slash, each of them from one to a million, with
blanks and a sign allowed before the digits. A part is read no further than to its first NUL, and
so a text with a NUL in it can be read as a meter that it does not write.
-/

namespace MusicPart

open Text

/-! ### Whole numbers -/

namespace Numeral

/-- A whole number may have one sign. -/
def signs : List Text := [[], [byte '-'], [byte '+']]

/-- Decimal digits, with the blanks and the sign that may stand before them. -/
structure Integer where
  blanks : Text
  sign : Text
  digits : Text
  isSpace_blanks : ∀ b ∈ blanks, isSpace b = true
  sign_mem : sign ∈ signs
  digits_ne_nil : digits ≠ []
  isDigit_digits : ∀ b ∈ digits, isDigit b = true

theorem eq_of_mem_signs {s : Text} (h : s ∈ signs) : s = [] ∨ s = [byte '-'] ∨ s = [byte '+'] := by
  simpa [signs] using h

section Sign

variable {s t : Text} {b : UInt8} (hs : s ∈ signs) (hb : isDigit b = true)

include hs hb

theorem dropWhile_sign_append : (s ++ b :: t).dropWhile isSpace = s ++ b :: t := by
  rcases eq_of_mem_signs hs with rfl | rfl | rfl
  · exact List.dropWhile_cons_of_neg (by simp [isSpace_digit hb])
  · rfl
  · rfl

theorem sign_append : sign (s ++ b :: t) = (s == [byte '-'], b :: t) := by
  have hminus : b ≠ byte '-' := ne_of_digit hb (by decide)
  have hplus : b ≠ byte '+' := ne_of_digit hb (by decide)
  rcases eq_of_mem_signs hs with rfl | rfl | rfl
  · simp [sign, hminus, hplus]
  · rfl
  · rfl

end Sign

theorem exists_sign_append (t : Text) :
    ∃ s ∈ signs, t = s ++ (sign t).2 ∧ (sign t).1 = (s == [byte '-']) := by
  cases t with
  | nil => exact ⟨[], by decide, rfl, rfl⟩
  | cons b t =>
      rw [sign]
      split_ifs with hminus hplus
      · exact ⟨[byte '-'], by decide, by rw [eq_of_beq hminus]; rfl, rfl⟩
      · exact ⟨[byte '+'], by decide, by rw [eq_of_beq hplus]; rfl, rfl⟩
      · exact ⟨[], by decide, rfl, rfl⟩

namespace Integer

def text (d : Integer) : Text := d.blanks ++ (d.sign ++ d.digits)

def value (d : Integer) : Int :=
  if d.sign = [byte '-'] then -(digitsValue d.digits : Int) else digitsValue d.digits

/-- The number ends where the digits end. -/
theorem integer?_text_append (d : Integer) {rest : Text}
    (h : ∀ b ∈ rest.head?, isDigit b = false) :
    integer? (d.text ++ rest) = some (d.value, rest) := by
  obtain ⟨b, digits, hdigits⟩ := List.exists_cons_of_ne_nil d.digits_ne_nil
  have hb : isDigit b = true := d.isDigit_digits b (by simp [hdigits])
  have hspan := span_of_forall d.isDigit_digits h
  rw [hdigits, List.cons_append] at hspan
  rw [integer?, text, List.append_assoc, List.dropWhile_append_of_pos d.isSpace_blanks,
    List.append_assoc, hdigits, List.cons_append, dropWhile_sign_append d.sign_mem hb,
    sign_append d.sign_mem hb]
  dsimp only
  rw [hspan, value, hdigits]
  simp only [beq_iff_eq]

end Integer

theorem exists_of_integer? {t rest : Text} {n : Int} (h : integer? t = some (n, rest)) :
    ∃ d : Integer, t = d.text ++ rest ∧ d.value = n ∧ ∀ b ∈ rest.head?, isDigit b = false := by
  obtain ⟨s, hs, hsign, hminus⟩ := exists_sign_append (t.dropWhile isSpace)
  rw [integer?] at h
  generalize sign (t.dropWhile isSpace) = signed at h hsign hminus
  obtain ⟨negative, u⟩ := signed
  dsimp only at h hsign hminus
  rw [List.span_eq_takeWhile_dropWhile] at h
  split at h
  · cases h
  · rename_i digits _ hne hspan
    cases hspan
    cases h
    refine ⟨⟨t.takeWhile isSpace, s, u.takeWhile isDigit, fun b => List.mem_takeWhile_imp, hs, hne,
      fun b => List.mem_takeWhile_imp⟩, ?_, ?_, ?_⟩
    · rw [Integer.text, List.append_assoc, List.append_assoc, List.takeWhile_append_dropWhile,
        ← hsign, List.takeWhile_append_dropWhile]
    · rw [Integer.value, hminus]
      simp only [beq_iff_eq]
    · intro b hb
      obtain ⟨rest, hrest⟩ := List.head?_eq_some_iff.mp hb
      exact of_dropWhile_eq_cons hrest

end Numeral

/-! ### Parts -/

namespace Text

theorem beforeNul_append {s rest : Text} (hs : 0 ∉ s) (hrest : rest.headD 0 = 0) :
    beforeNul (s ++ rest) = s := by
  have hkept : ∀ b ∈ s, (b != 0) = true := fun b hb => bne_iff_ne.mpr fun h => hs (h ▸ hb)
  rw [beforeNul, List.takeWhile_append_of_pos hkept]
  cases rest with
  | nil => simp
  | cons b rest =>
      rw [List.headD_cons] at hrest
      simp [hrest]

theorem exists_beforeNul_append (t : Text) :
    ∃ rest, t = beforeNul t ++ rest ∧ rest.headD 0 = 0 := by
  refine ⟨t.dropWhile (· != 0), List.takeWhile_append_dropWhile.symm, ?_⟩
  cases hrest : t.dropWhile (· != 0) with
  | nil => rfl
  | cons b rest => simpa using of_dropWhile_eq_cons hrest

theorem beforeNul_eq_self {t : Text} (h : 0 ∉ t) : beforeNul t = t := by
  have hend : ([] : Text).headD 0 = 0 := rfl
  simpa using beforeNul_append h hend

end Text

theorem Numeral.Integer.zero_not_mem_text (d : Numeral.Integer) : 0 ∉ d.text := by
  simp only [text, List.mem_append, not_or]
  refine ⟨fun h => ?_, fun h => ?_, fun h => ?_⟩
  · exact absurd (d.isSpace_blanks 0 h) (by decide)
  · rcases eq_of_mem_signs d.sign_mem with hsign | hsign | hsign <;> rw [hsign] at h <;>
      exact absurd h (by decide)
  · exact absurd (d.isDigit_digits 0 h) (by decide)

namespace Meter

open Numeral (Integer integer?)

/-- A text that writes a part of a meter and nothing else. -/
def IsPart (t : Text) (n : Int) : Prop :=
  (1 ≤ n ∧ n ≤ 1000000) ∧ ∃ d : Integer, d.text = t ∧ d.value = n

theorem IsPart.zero_not_mem {t : Text} {n : Int} (h : IsPart t n) : 0 ∉ t := by
  obtain ⟨-, d, rfl, -⟩ := h
  exact d.zero_not_mem_text

theorem IsPart.ne_nil {t : Text} {n : Int} (h : IsPart (beforeNul t) n) : t ≠ [] := by
  obtain ⟨-, d, htext, -⟩ := h
  rintro rfl
  have hdigits : d.digits = [] := by
    change d.text = [] at htext
    simp only [Integer.text, List.append_eq_nil_iff] at htext
    exact htext.2.2
  exact d.digits_ne_nil hdigits

theorem part?_eq_some_iff {t : Text} {n : Int} : part? t = some n ↔ IsPart (beforeNul t) n := by
  rw [part?]
  constructor
  · intro h
    split at h
    · rename_i k rest hread
      obtain ⟨hbounds, h⟩ := Option.ite_none_right_eq_some.mp h
      cases h
      simp only [Bool.and_eq_true, beq_iff_eq, decide_eq_true_eq] at hbounds
      obtain ⟨⟨hrest, hlow⟩, hhigh⟩ := hbounds
      obtain ⟨d, rfl, hvalue, -⟩ := Numeral.exists_of_integer? hread
      exact ⟨⟨hlow, hhigh⟩, d, (beforeNul_append d.zero_not_mem_text hrest).symm, hvalue⟩
    · cases h
  · rintro ⟨⟨hlow, hhigh⟩, d, htext, rfl⟩
    obtain ⟨rest, ht, hrest⟩ := exists_beforeNul_append t
    have hdigit : ∀ b ∈ rest.head?, isDigit b = false := by
      intro b hb
      rw [List.headD_eq_head?_getD, Option.mem_def.mp hb, Option.getD_some] at hrest
      rw [hrest]
      decide
    rw [ht, ← htext, d.integer?_text_append hdigit]
    dsimp only
    rw [hrest]
    simp [hlow, hhigh, largest]

/-! ### Meters -/

/-- A text that writes a meter: two parts around its first slash. -/
def Writes (t : Text) (m : Meter) : Prop :=
  ∃ beats unit, t = beats ++ byte '/' :: unit ∧ byte '/' ∉ beats ∧ IsPart beats m.beats ∧
    IsPart unit m.unit

theorem read?_eq_some_iff {t : Text} {m : Meter} : read? t = some m ↔
    ∃ beats unit, t = beats ++ byte '/' :: unit ∧ byte '/' ∉ beats ∧
      IsPart (beforeNul beats) m.beats ∧ IsPart (beforeNul unit) m.unit := by
  rw [read?]
  constructor
  · intro h
    obtain ⟨⟨beats, unit⟩, hcut, h⟩ := Option.bind_eq_some_iff.mp h
    obtain ⟨-, h⟩ := Option.ite_none_left_eq_some.mp h
    obtain ⟨b, hb, h⟩ := Option.bind_eq_some_iff.mp h
    obtain ⟨u, hu, h⟩ := Option.bind_eq_some_iff.mp h
    cases h
    obtain ⟨ht, hslash⟩ := cutAt?_eq_some_iff.mp hcut
    exact ⟨beats, unit, ht, hslash, part?_eq_some_iff.mp hb, part?_eq_some_iff.mp hu⟩
  · rintro ⟨beats, unit, ht, hslash, hbeats, hunit⟩
    have hcut := cutAt?_eq_some_iff.mpr ⟨ht, hslash⟩
    have hempty : (beats.isEmpty || unit.isEmpty) = false := by
      rw [Bool.or_eq_false_iff, List.isEmpty_eq_false_iff, List.isEmpty_eq_false_iff]
      exact ⟨hbeats.ne_nil, hunit.ne_nil⟩
    rw [hcut]
    simp only [Option.bind_eq_bind, Option.bind_some, hempty, part?_eq_some_iff.mpr hbeats,
      part?_eq_some_iff.mpr hunit]
    rfl

theorem bounds_of_read? {t : Text} {m : Meter} (h : read? t = some m) :
    (1 ≤ m.beats ∧ m.beats ≤ 1000000) ∧ 1 ≤ m.unit ∧ m.unit ≤ 1000000 := by
  obtain ⟨beats, unit, -, -, hbeats, hunit⟩ := read?_eq_some_iff.mp h
  exact ⟨hbeats.1, hunit.1⟩

/-- A meter is written by the texts without NUL that it is read of. -/
theorem writes_iff {t : Text} {m : Meter} : Writes t m ↔ read? t = some m ∧ 0 ∉ t := by
  rw [read?_eq_some_iff]
  constructor
  · rintro ⟨beats, unit, rfl, hslash, hbeats, hunit⟩
    refine ⟨⟨beats, unit, rfl, hslash, ?_, ?_⟩, ?_⟩
    · rwa [beforeNul_eq_self hbeats.zero_not_mem]
    · rwa [beforeNul_eq_self hunit.zero_not_mem]
    · rw [List.mem_append, List.mem_cons, not_or, not_or]
      exact ⟨hbeats.zero_not_mem, by decide, hunit.zero_not_mem⟩
  · rintro ⟨⟨beats, unit, rfl, hslash, hbeats, hunit⟩, hzero⟩
    rw [List.mem_append, List.mem_cons, not_or, not_or] at hzero
    rw [beforeNul_eq_self hzero.1] at hbeats
    rw [beforeNul_eq_self hzero.2.2] at hunit
    exact ⟨beats, unit, rfl, hslash, hbeats, hunit⟩

/-- The texts that are read as a meter are those of two parts around the first slash, each up to its
first NUL. They write this meter exactly if they have no NUL. What was read stands in the place of
an earlier meter, which stays where nothing is read. -/
theorem read?_iff_writes (t : Text) :
    (∀ m, read? t = some m ↔ ∃ beats unit, t = beats ++ byte '/' :: unit ∧ byte '/' ∉ beats ∧
      IsPart (beforeNul beats) m.beats ∧ IsPart (beforeNul unit) m.unit) ∧
    ((∀ m, read? t = some m ↔ Writes t m) ↔ ¬((read? t).isSome = true ∧ 0 ∈ t)) ∧
    ∀ earlier : Meter, (∃ m, read? t = some m ∧ (read? t).getD earlier = m) ∨
      (∀ m, read? t ≠ some m) ∧ (read? t).getD earlier = earlier := by
  refine ⟨fun m => read?_eq_some_iff, ?_, fun earlier => ?_⟩
  · constructor
    · rintro h ⟨hsome, hzero⟩
      obtain ⟨m, hm⟩ := Option.isSome_iff_exists.mp hsome
      exact (writes_iff.mp ((h m).mp hm)).2 hzero
    · intro h m
      rw [writes_iff]
      exact ⟨fun hm => ⟨hm, fun hzero => h ⟨Option.isSome_of_eq_some hm, hzero⟩⟩, And.left⟩
  · cases hread : read? t with
    | none => exact .inr ⟨fun m => nofun, rfl⟩
    | some m => exact .inl ⟨m, rfl, rfl⟩

/-- A meter with more behind a NUL. -/
def hiddenTail : Text := "4\x00 beats/4"

theorem hiddenTail_not_writes : (read? hiddenTail = some ⟨4, 4⟩ ∧ 0 ∈ hiddenTail) ∧
    ¬∀ m, read? hiddenTail = some m ↔ Writes hiddenTail m := by
  have hread : read? hiddenTail = some ⟨4, 4⟩ := by decide +kernel
  have hzero : 0 ∈ hiddenTail := by decide +kernel
  refine ⟨⟨hread, hzero⟩, fun h => ?_⟩
  exact (read?_iff_writes hiddenTail).2.1.mp h ⟨Option.isSome_of_eq_some hread, hzero⟩

end Meter

end MusicPart
