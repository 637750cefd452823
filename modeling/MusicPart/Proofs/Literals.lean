import Mathlib
import MusicPart.Json.Literal

/-!
# String literals

A text that is written as a literal is read back, whatever its bytes are and whatever follows it.
Each byte is written as one piece, and the piece stands for that byte alone.
-/

namespace MusicPart.Json.Literal

open Text

/-! ### Pieces -/

/-- The piece that a byte is written as. -/
def pieceOf (b : UInt8) : Piece :=
  if b == quote then .short quote
  else if b == backslash then .short backslash
  else if b == 0x08 then .short (byte 'b')
  else if b == 0x0C then .short (byte 'f')
  else if b == 0x0A then .short (byte 'n')
  else if b == 0x0D then .short (byte 'r')
  else if b == 0x09 then .short (byte 't')
  else if b < 0x20 then
    .unit (byte '0') (byte '0') (hexDigit (b.toNat / 16)) (hexDigit (b.toNat % 16))
  else .plain b

theorem written_pieceOf (b : UInt8) : written (pieceOf b) = escapeByte b := by
  unfold pieceOf escapeByte
  split_ifs <;> rfl

theorem escape_eq_flatMap (t : Text) : escape t = (t.map pieceOf).flatMap written := by
  rw [escape, List.flatMap_map]
  exact congrArg (List.flatMap · t) (funext fun b => (written_pieceOf b).symm)

/-- A piece that reading takes for itself. -/
def isLegal : Piece → Bool
  | .plain b => b != quote && b != backslash
  | .short letter => letter != byte 'u' && (short? letter).isSome
  | .unit a b c d => isHex a && isHex b && isHex c && isHex d

/-- A piece that stands for one byte, whatever comes after it. -/
def standsFor (b : UInt8) : Piece → Bool
  | .plain c => c == b
  | .short letter => short? letter == some b
  | .unit a₁ a₂ a₃ a₄ => code a₁ a₂ a₃ a₄ == b.toNat && b < 0x80

theorem forall_byte {p : UInt8 → Prop} (h : ∀ n : Fin 256, p (UInt8.ofFin n)) (b : UInt8) : p b :=
  h b.toFin

theorem pieceOf_isLegal (b : UInt8) : isLegal (pieceOf b) = true := by
  revert b
  exact forall_byte (by decide +kernel)

theorem pieceOf_standsFor (b : UInt8) : standsFor b (pieceOf b) = true := by
  revert b
  exact forall_byte (by decide +kernel)

/-! ### Reading -/

theorem pieces_quote (rest : Text) : pieces (quote :: rest) = .ok ([], rest) := by
  rw [pieces.eq_def]
  simp only [beq_self_eq_true, if_true]

theorem pieces_written {p : Piece} (hp : isLegal p = true) {t rest : Text} {ps : List Piece}
    (h : pieces t = .ok (ps, rest)) : pieces (written p ++ t) = .ok (p :: ps, rest) := by
  cases p with
  | plain b =>
      simp only [isLegal, Bool.and_eq_true] at hp
      have hquote : (b == quote) = false := by simpa using hp.1
      rw [written, List.singleton_append, pieces.eq_def]
      simp only [hquote, hp.2, Bool.false_eq_true, if_false, if_true, h]
      rfl
  | short letter =>
      simp only [isLegal, Bool.and_eq_true] at hp
      have hunit : (letter == byte 'u') = false := by simpa using hp.1
      have hshort : (short? letter).isNone = false := by simpa [← Option.not_isSome] using hp.2
      have hquote : (backslash == quote) = false := by decide
      change pieces (backslash :: letter :: t) = _
      rw [pieces.eq_def]
      simp only [hquote, hunit, hshort, bne_self_eq_false, Bool.false_eq_true, if_false, h]
      rfl
  | unit a b c d =>
      simp only [isLegal, Bool.and_eq_true] at hp
      obtain ⟨⟨⟨ha, hb⟩, hc⟩, hd⟩ := hp
      have hquote : (backslash == quote) = false := by decide
      change pieces (backslash :: byte 'u' :: a :: b :: c :: d :: t) = _
      rw [pieces.eq_def]
      simp only [hquote, bne_self_eq_false, beq_self_eq_true, ha, hb, hc, hd, Bool.not_true,
        Bool.false_eq_true, if_false, if_true, h]
      rfl

theorem pieces_flatMap_written {ps : List Piece} (hp : ∀ p ∈ ps, isLegal p = true) (rest : Text) :
    pieces (ps.flatMap written ++ quote :: rest) = .ok (ps, rest) := by
  induction ps with
  | nil => exact pieces_quote rest
  | cons p ps ih =>
      rw [List.flatMap_cons, List.append_assoc]
      exact pieces_written (hp p (by simp)) (ih fun q hq => hp q (by simp [hq]))

/-- A literal is read up to its closing quote, whatever follows it. -/
theorem read_written {ps : List Piece} (h : ∀ p ∈ ps, isLegal p = true) (rest : Text) :
    read (quote :: (ps.flatMap written ++ quote :: rest)) = .ok (decode ps, rest) := by
  rw [read, if_pos (by decide), pieces_flatMap_written h]
  rfl

theorem encode_of_lt {n : Nat} (h : n < 0x80) : Utf8.encode n = [n.toUInt8] := by
  rw [Utf8.encode, if_pos h]

theorem isHigh_of_lt {n : Nat} (h : n < 0x80) : isHigh n = false := by
  rw [isHigh]
  simp only [Bool.and_eq_false_iff, decide_eq_false_iff_not]
  omega

theorem decode_cons {b : UInt8} {p : Piece} (h : standsFor b p = true) (ps : List Piece) :
    decode (p :: ps) = b :: decode ps := by
  cases p with
  | plain c =>
      rw [decode, beq_iff_eq.mp h]
  | short letter =>
      rw [decode, beq_iff_eq.mp h]
      rfl
  | unit a₁ a₂ a₃ a₄ =>
      simp only [standsFor, Bool.and_eq_true, beq_iff_eq, decide_eq_true_eq] at h
      obtain ⟨hcode, hlt⟩ := h
      have hlt : b.toNat < 0x80 := hlt
      have hencode : Utf8.encode (code a₁ a₂ a₃ a₄) = [b] := by
        rw [hcode, encode_of_lt hlt]
        simp
      have hhigh := hcode ▸ isHigh_of_lt hlt
      cases ps with
      | nil => simp [decode, hencode]
      | cons q ps =>
          cases q with
          | unit _ _ _ _ => simp [decode, hencode, hhigh]
          | plain _ => simp [decode, hencode]
          | short _ => simp [decode, hencode]

theorem decode_map_pieceOf (t : Text) : decode (t.map pieceOf) = t := by
  induction t with
  | nil => rfl
  | cons b t ih => rw [List.map_cons, decode_cons (pieceOf_standsFor b), ih]

/-- A text is read back from the literal that it is written as. -/
theorem read_render (t rest : Text) : read (render t ++ rest) = .ok (t, rest) := by
  have hlegal : ∀ p ∈ t.map pieceOf, isLegal p = true := by
    intro p hp
    obtain ⟨b, -, rfl⟩ := List.mem_map.mp hp
    exact pieceOf_isLegal b
  rw [render, List.cons_append, List.append_assoc, List.singleton_append, escape_eq_flatMap,
    read_written hlegal, decode_map_pieceOf]

end MusicPart.Json.Literal
