import MusicPart.Quantity.Binary64
import MusicPart.Proofs.Rereading
import MusicPart.Proofs.Utf8

/-!
# Lone surrogates

Each piece of a string literal stands for a text of its own, and the escapes of a high and a low
surrogate in a row for one code. Reading a literal finds that text and leaves nothing out, unless
an escape stands behind the one of a high surrogate without completing it: that escape is lost.
-/

namespace MusicPart.Json.Literal

open Text

/-! ### What pieces stand for -/

/-- What a piece stands for by itself. -/
def ownText : Piece → Text
  | .plain b => [b]
  | .short letter => (short? letter).toList
  | .unit a b c d => Utf8.encode (code a b c d)

/-- What pieces stand for. Only a high surrogate and a low one right behind it make one code. -/
def fullText : List Piece → Text
  | [] => []
  | .unit a b c d :: .unit a' b' c' d' :: ps =>
      let high := code a b c d
      let low := code a' b' c' d'
      if isHigh high && isLow low then
        Utf8.encode (0x10000 + 0x400 * (high - 0xD800) + (low - 0xDC00)) ++ fullText ps
      else ownText (.unit a b c d) ++ fullText (.unit a' b' c' d' :: ps)
  | p :: ps => ownText p ++ fullText ps

/-- An escape of a high surrogate before another one that does not complete it. -/
def Swallows : Piece → Piece → Prop
  | .unit a b c d, .unit a' b' c' d' =>
      isHigh (code a b c d) = true ∧ isLow (code a' b' c' d') = false
  | _, _ => False

theorem isHigh_of_isLow {u : Nat} (h : isLow u = true) : isHigh u = false := by
  simp only [isLow, Bool.and_eq_true, decide_eq_true_eq] at h
  simp only [isHigh, Bool.and_eq_false_iff, decide_eq_false_iff_not]
  omega

theorem length_encode_of_isLow {u : Nat} (h : isLow u = true) : (Utf8.encode u).length = 3 := by
  simp only [isLow, Bool.and_eq_true, decide_eq_true_eq] at h
  rw [Utf8.encode, if_neg (by omega), if_neg (by omega), if_pos (by omega)]
  rfl

theorem length_encode_of_le {u : Nat} (h : 0x10000 ≤ u) : (Utf8.encode u).length = 4 := by
  rw [Utf8.encode, if_neg (by omega), if_neg (by omega), if_neg (by omega)]
  rfl

/-! ### What is lost -/

theorem fullText_cons_of_not_high {a b c d : UInt8} (h : isHigh (code a b c d) = false)
    (ps : List Piece) :
    fullText (.unit a b c d :: ps) = Utf8.encode (code a b c d) ++ fullText ps := by
  cases ps with
  | nil => rfl
  | cons p ps =>
      cases p with
      | unit a' b' c' d' => simp [fullText, h, ownText]
      | plain _ => rfl
      | short _ => rfl

theorem fullText_cons_of_no_unit {a b c d : UInt8} {ps : List Piece}
    (h : ∀ a' b' c' d' ps', ps = .unit a' b' c' d' :: ps' → False) :
    fullText (.unit a b c d :: ps) = Utf8.encode (code a b c d) ++ fullText ps :=
  fullText.eq_3 _ _ fun _ _ _ _ a' b' c' d' ps' _ => h a' b' c' d' ps'

theorem length_fullText_lt_cons (a b c d : UInt8) (ps : List Piece) :
    (fullText ps).length < (fullText (.unit a b c d :: ps)).length := by
  have hown : 0 < (Utf8.encode (code a b c d)).length :=
    List.length_pos_iff.mpr (Utf8.encode_ne_nil _)
  have happend (t : Text) : t.length < (Utf8.encode (code a b c d) ++ t).length := by
    rw [List.length_append]
    omega
  cases ps with
  | nil => exact happend []
  | cons p ps =>
      cases p with
      | plain _ => exact happend _
      | short _ => exact happend _
      | unit a' b' c' d' =>
          by_cases hpair : (isHigh (code a b c d) && isLow (code a' b' c' d')) = true
          · -- Two escapes of three bytes each make a code of four.
            have hlow := (Bool.and_eq_true_iff.mp hpair).2
            rw [fullText_cons_of_not_high (isHigh_of_isLow hlow), fullText, if_pos hpair,
              List.length_append, List.length_append, length_encode_of_isLow hlow,
              length_encode_of_le (by omega)]
            omega
          · rw [fullText, if_neg hpair]
            exact happend _

/-- Reading never finds more than what the pieces stand for. -/
theorem length_decode_le (ps : List Piece) : (decode ps).length ≤ (fullText ps).length := by
  induction ps using decode.induct with
  | case1 => exact le_rfl
  | case2 b ps ih => exact Nat.succ_le_succ ih
  | case3 letter ps ih =>
      change _ ≤ ((short? letter).toList ++ fullText ps).length
      rw [decode, List.length_append, List.length_append]
      omega
  | case4 a b c d a' b' c' d' ps high hhigh ih =>
      have hhigh : isHigh (code a b c d) = false := by simpa using hhigh
      rw [fullText_cons_of_not_high hhigh]
      simp only [decode, hhigh, Bool.not_false, if_true, List.length_append]
      omega
  | case5 a b c d a' b' c' d' ps high low hhigh hlow ih =>
      have hhigh : isHigh (code a b c d) = true := by simpa using hhigh
      have hlow : isLow (code a' b' c' d') = true := hlow
      simp only [decode, fullText, hhigh, hlow, Bool.not_true, Bool.and_true, Bool.false_eq_true,
        if_false, if_true, List.length_append]
      omega
  | case6 a b c d a' b' c' d' ps high low hhigh hlow ih =>
      have hhigh : isHigh (code a b c d) = true := by simpa using hhigh
      have hlow : isLow (code a' b' c' d') = false := by simpa using hlow
      have hlt := length_fullText_lt_cons a' b' c' d' ps
      simp only [decode, fullText, ownText, hhigh, hlow, Bool.not_true, Bool.and_false,
        Bool.false_eq_true, if_false, List.length_append]
      omega
  | case7 a b c d ps hnot ih =>
      rw [decode.eq_5 _ _ _ _ _ hnot, fullText_cons_of_no_unit hnot, List.length_append,
        List.length_append]
      omega

/-- The text that is read is the one that the pieces stand for exactly if no escape of a high
surrogate stands before another escape that does not complete it. -/
theorem decode_eq_fullText_iff (ps : List Piece) :
    decode ps = fullText ps ↔ ps.IsChain fun p q => ¬Swallows p q := by
  induction ps using decode.induct with
  | case1 => simp [decode, fullText]
  | case2 b ps ih =>
      have hnone (q : Piece) : ¬Swallows (.plain b) q := by simp [Swallows]
      change b :: decode ps = b :: fullText ps ↔ _
      rw [List.cons_inj_right, ih, List.isChain_cons]
      exact (and_iff_right fun q _ => hnone q).symm
  | case3 letter ps ih =>
      have hnone (q : Piece) : ¬Swallows (.short letter) q := by simp [Swallows]
      change (short? letter).toList ++ decode ps = (short? letter).toList ++ fullText ps ↔ _
      rw [List.append_cancel_left_eq, ih, List.isChain_cons]
      exact (and_iff_right fun q _ => hnone q).symm
  | case4 a b c d a' b' c' d' ps high hhigh ih =>
      have hhigh : isHigh (code a b c d) = false := by simpa using hhigh
      have hnone : ¬Swallows (.unit a b c d) (.unit a' b' c' d') := by simp [Swallows, hhigh]
      rw [fullText_cons_of_not_high hhigh, List.isChain_cons_cons, ← ih]
      simp only [decode, hhigh, Bool.not_false, if_true, List.append_cancel_left_eq]
      exact (and_iff_right hnone).symm
  | case5 a b c d a' b' c' d' ps high low hhigh hlow ih =>
      have hhigh : isHigh (code a b c d) = true := by simpa using hhigh
      have hlow : isLow (code a' b' c' d') = true := hlow
      have hnone : ¬Swallows (.unit a b c d) (.unit a' b' c' d') := by simp [Swallows, hlow]
      have hnext (q : Piece) : ¬Swallows (.unit a' b' c' d') q := by
        cases q <;> simp [Swallows, isHigh_of_isLow hlow]
      rw [List.isChain_cons_cons, List.isChain_cons, ← ih]
      simp only [decode, fullText, hhigh, hlow, Bool.not_true, Bool.and_true, Bool.false_eq_true,
        if_false, if_true, List.append_cancel_left_eq]
      exact ⟨fun h => ⟨hnone, fun q _ => hnext q, h⟩, fun h => h.2.2⟩
  | case6 a b c d a' b' c' d' ps high low hhigh hlow ih =>
      have hhigh : isHigh (code a b c d) = true := by simpa using hhigh
      have hlow : isLow (code a' b' c' d') = false := by simpa using hlow
      have hswallows : Swallows (.unit a b c d) (.unit a' b' c' d') := ⟨hhigh, hlow⟩
      -- What is left of the pieces cannot make up for the escape that was lost.
      have hshort : (decode ps).length < (fullText (.unit a' b' c' d' :: ps)).length :=
        (length_decode_le ps).trans_lt (length_fullText_lt_cons a' b' c' d' ps)
      rw [List.isChain_cons_cons]
      simp only [decode, fullText, ownText, hhigh, hlow, Bool.not_true, Bool.and_false,
        Bool.false_eq_true, if_false, List.append_cancel_left_eq]
      exact ⟨fun h => absurd (congrArg List.length h) hshort.ne, fun h => absurd hswallows h.1⟩
  | case7 a b c d ps hnot ih =>
      have hnone (q : Piece) (hq : q ∈ ps.head?) : ¬Swallows (.unit a b c d) q := by
        cases q with
        | unit a' b' c' d' =>
            obtain ⟨ps', rfl⟩ := List.head?_eq_some_iff.mp hq
            exact (hnot a' b' c' d' ps' rfl).elim
        | plain _ => simp [Swallows]
        | short _ => simp [Swallows]
      rw [decode.eq_5 _ _ _ _ _ hnot, fullText_cons_of_no_unit hnot, List.append_cancel_left_eq,
        ih, List.isChain_cons]
      exact (and_iff_right hnone).symm

end MusicPart.Json.Literal

namespace MusicPart.Json

open Text Literal

variable {α : Type} [Quantity α]

/-- Every literal is read, alone as a document and before whatever follows it. It is read as what
its pieces stand for exactly if no escape behind one of a high surrogate fails to complete it. -/
theorem parse_written_eq_iff {ps : List Piece} (h : ∀ p ∈ ps, isLegal p = true) :
    (∀ rest, Literal.read (quote :: (ps.flatMap written ++ quote :: rest)) =
        .ok (decode ps, rest)) ∧
      (parse (quote :: (ps.flatMap written ++ [quote])) : Except Text (Value α)) =
        .ok (.string (decode ps)) ∧
      (decode ps = fullText ps ↔ ps.IsChain fun p q => ¬Swallows p q) := by
  refine ⟨read_written h, ?_, decode_eq_fullText_iff ps⟩
  have hdocument : (Reader.document (quote :: (ps.flatMap written ++ [quote])) :
      Except Failure (Value α)) = .ok (.string (decode ps)) := by
    have hread := read_written h []
    rw [Reader.document, Reader.value, Reader.skip_cons (by decide)]
    simp only [hread]
    rfl
  rw [parse, hdocument]

/-- A pair of surrogates between a letter and a high surrogate, and an escaped letter at the end. -/
def strayLetter : List Piece :=
  [.plain (byte 'a'), .short (byte 'n'), .unit (byte 'd') (byte '8') (byte '3') (byte 'd'),
    .unit (byte 'D') (byte 'E') (byte '0') (byte '0'),
    .unit (byte 'd') (byte '8') (byte '0') (byte '0'),
    .unit (byte '0') (byte '0') (byte '4') (byte '1')]

theorem parse_strayLetter : (∀ p ∈ strayLetter, isLegal p = true) ∧
    (parse (quote :: (strayLetter.flatMap written ++ [quote])) : Except Text (Value Float)) =
      .ok (.string [0x61, 0x0A, 0xF0, 0x9F, 0x98, 0x80, 0xED, 0xA0, 0x80]) ∧
    fullText strayLetter = [0x61, 0x0A, 0xF0, 0x9F, 0x98, 0x80, 0xED, 0xA0, 0x80, 0x41] ∧
    ¬strayLetter.IsChain fun p q => ¬Swallows p q := by
  have hlegal : ∀ p ∈ strayLetter, isLegal p = true := by decide
  have hlost : decode strayLetter ≠ fullText strayLetter := by decide
  obtain ⟨-, hparse, hfull⟩ := parse_written_eq_iff (α := Float) hlegal
  exact ⟨hlegal, hparse, by decide, mt hfull.mpr hlost⟩

end MusicPart.Json
