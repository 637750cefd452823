import MusicPart.Proofs.Nesting
import MusicPart.Proofs.Utf8

/-!
# Surrogates

An escape of a UTF-16 unit stands for a code, and two escapes for one code if they are a high and a
low surrogate. If no surrogate is without its other half, then the literals of a text in order stand
for texts in order.
-/

namespace MusicPart.Json.Literal

open Text Text.Utf8

/-! ### Pairs -/

/-- An escape of a low surrogate stands behind each one of a high surrogate, and nowhere else. -/
def paired : List Piece → Bool
  | [] => true
  | .plain _ :: ps => paired ps
  | .short _ :: ps => paired ps
  | .unit a b c d :: .unit a' b' c' d' :: ps =>
      if isHigh (code a b c d) then isLow (code a' b' c' d') && paired ps
      else !isLow (code a b c d) && paired (.unit a' b' c' d' :: ps)
  | .unit a b c d :: ps => !isHigh (code a b c d) && !isLow (code a b c d) && paired ps

theorem code_lt (a b c d : UInt8) : code a b c d < 0x10000 := by
  have hdigit (x : UInt8) : (hexValue? x).getD 0 < 16 := by
    revert x
    exact forall_byte (by decide +kernel)
  have ha := hdigit a
  have hb := hdigit b
  have hc := hdigit c
  have hd := hdigit d
  simp only [code, List.foldl_cons, List.foldl_nil]
  omega

theorem isScalar_of_not_surrogate {u : Nat} (h : u < 0x10000) (hhigh : isHigh u = false)
    (hlow : isLow u = false) : IsScalar u := by
  simp only [isHigh, isLow, Bool.and_eq_false_iff, decide_eq_false_iff_not] at hhigh hlow
  rw [IsScalar]
  omega

theorem isScalar_of_pair {high low : Nat} (hhigh : isHigh high = true) (hlow : isLow low = true) :
    IsScalar (0x10000 + 0x400 * (high - 0xD800) + (low - 0xDC00)) := by
  simp only [isHigh, isLow, Bool.and_eq_true, decide_eq_true_eq] at hhigh hlow
  rw [IsScalar]
  omega

theorem lt_of_isHex {b : UInt8} (h : isHex b = true) : b < 0x80 := by
  revert h
  exact forall_byte (p := fun b => isHex b = true → b < 0x80) (by decide +kernel) b

theorem ascii_written_unit {a b c d : UInt8} (h : isLegal (.unit a b c d) = true) :
    Ascii (written (.unit a b c d)) := by
  simp only [isLegal, Bool.and_eq_true] at h
  obtain ⟨⟨⟨ha, hb⟩, hc⟩, hd⟩ := h
  exact .cons (by decide) (.cons (by decide) (.cons (lt_of_isHex ha) (.cons (lt_of_isHex hb)
    (.cons (lt_of_isHex hc) (.cons (lt_of_isHex hd) .nil)))))

theorem ascii_short {letter : UInt8} (h : isLegal (.short letter) = true) :
    letter < 0x80 ∧ ∃ b, b < 0x80 ∧ short? letter = some b := by
  have hshort (letter : UInt8) : isLegal (.short letter) = true →
      letter < 0x80 ∧ (short? letter).any (· < 0x80) = true := by
    revert letter
    exact forall_byte (by decide +kernel)
  obtain ⟨hletter, hany⟩ := hshort letter h
  obtain ⟨b, hb, hlt⟩ := (Option.any_eq_true ..).mp hany
  exact ⟨hletter, b, of_decide_eq_true hlt, hb⟩

/-- A piece that starts with a backslash stands where nothing is owed. -/
theorem accepts_backslash {n : Nat} {low high : UInt8} {t : Text} (h : Owes n low high)
    (ht : accepts n low high (backslash :: t) = true) : n = 0 ∧ isValid (backslash :: t) = true := by
  cases n with
  | zero => exact ⟨rfl, accepts_zero low high _ ▸ ht⟩
  | succ n =>
      rw [accepts_succ_cons_of_lt h (by decide)] at ht
      exact absurd ht Bool.false_ne_true

/-- An escape of a unit stands where nothing is owed, and what follows it is in order by itself. -/
theorem accepts_unit {a b c d : UInt8} (hlegal : isLegal (.unit a b c d) = true) {n : Nat}
    {low high : UInt8} (h : Owes n low high) {t : Text}
    (ht : accepts n low high (written (.unit a b c d) ++ t) = true) : n = 0 ∧ isValid t = true := by
  obtain ⟨hn, hvalid⟩ := accepts_backslash h ht
  exact ⟨hn, (ascii_written_unit hlegal).isValid_append.symm.trans hvalid⟩

/-- Pieces of paired surrogates stand for a text that is in order if they are. -/
theorem accepts_decode {ps : List Piece} (hlegal : ∀ p ∈ ps, isLegal p = true)
    (hpaired : paired ps = true) {n : Nat} {low high : UInt8} (h : Owes n low high)
    (ht : accepts n low high (ps.flatMap written) = true) :
    accepts n low high (decode ps) = true := by
  induction ps using paired.induct generalizing n low high with
  | case1 => exact ht
  | case2 b ps ih =>
      obtain ⟨-, hlegal⟩ := List.forall_mem_cons.mp hlegal
      rw [List.flatMap_cons, written, List.singleton_append] at ht
      rw [paired] at hpaired
      rw [decode]
      obtain hfalse | ⟨n', low', high', howes, hstep⟩ := accepts_cons h b
      · rw [hfalse] at ht
        exact absurd ht Bool.false_ne_true
      · rw [hstep] at ht ⊢
        exact ih hlegal hpaired howes ht
  | case3 letter ps ih =>
      obtain ⟨hshort, hlegal⟩ := List.forall_mem_cons.mp hlegal
      obtain ⟨hletter, b, hb, hb?⟩ := ascii_short hshort
      obtain ⟨rfl, hvalid⟩ := accepts_backslash h ht
      rw [paired] at hpaired
      rw [decode, hb?, accepts_zero]
      have hrest : isValid (ps.flatMap written) = true := by
        rw [← isValid_cons_of_lt hletter, ← isValid_cons_of_lt (b := backslash) (by decide)]
        exact hvalid
      exact (isValid_cons_of_lt hb).trans (ih hlegal hpaired (owes_zero 0 0) hrest)
  | case4 a b c d a' b' c' d' ps hhigh ih =>
      obtain ⟨hunit, hlegal⟩ := List.forall_mem_cons.mp hlegal
      obtain ⟨hunit', hlegal⟩ := List.forall_mem_cons.mp hlegal
      obtain ⟨rfl, hvalid⟩ := accepts_unit hunit h ht
      obtain ⟨-, hrest⟩ := accepts_unit hunit' (owes_zero 0 0) hvalid
      rw [paired, if_pos hhigh, Bool.and_eq_true] at hpaired
      have hscalar := isScalar_of_pair hhigh hpaired.1
      simp only [decode, hhigh, hpaired.1, Bool.not_true, Bool.false_eq_true, if_false, if_true]
      rw [accepts_zero, isValid_append (isValid_encode hscalar)]
      exact ih hlegal hpaired.2 (owes_zero 0 0) hrest
  | case5 a b c d a' b' c' d' ps hhigh ih =>
      obtain ⟨hunit, hlegal⟩ := List.forall_mem_cons.mp hlegal
      obtain ⟨rfl, hvalid⟩ := accepts_unit hunit h ht
      rw [Bool.not_eq_true] at hhigh
      rw [paired, hhigh, if_neg Bool.false_ne_true, Bool.and_eq_true, Bool.not_eq_true'] at hpaired
      have hscalar := isScalar_of_not_surrogate (code_lt a b c d) hhigh hpaired.1
      simp only [decode, hhigh, Bool.not_false, if_true]
      rw [accepts_zero, isValid_append (isValid_encode hscalar)]
      exact ih hlegal hpaired.2 (owes_zero 0 0) hvalid
  | case6 a b c d ps hnot ih =>
      obtain ⟨hunit, hlegal⟩ := List.forall_mem_cons.mp hlegal
      obtain ⟨rfl, hvalid⟩ := accepts_unit hunit h ht
      rw [paired.eq_5 _ _ _ _ _ hnot, Bool.and_eq_true, Bool.and_eq_true, Bool.not_eq_true',
        Bool.not_eq_true'] at hpaired
      have hscalar := isScalar_of_not_surrogate (code_lt a b c d) hpaired.1.1 hpaired.1.2
      rw [decode.eq_5 _ _ _ _ _ hnot, accepts_zero, isValid_append (isValid_encode hscalar)]
      exact ih hlegal hpaired.2 (owes_zero 0 0) hvalid

/-! ### Literals -/

/-- The pieces that are read are those that were written. -/
theorem eq_of_pieces {t rest : Text} {ps : List Piece} (h : pieces t = .ok (ps, rest)) :
    (∀ p ∈ ps, isLegal p = true) ∧ t = ps.flatMap written ++ quote :: rest := by
  fun_induction pieces t generalizing ps rest with
  | case2 b t hquote =>
      cases h
      exact ⟨List.forall_mem_nil _, by rw [eq_of_beq hquote]; rfl⟩
  | case3 b t hquote hback ih =>
      obtain ⟨⟨qs, t'⟩, hqs, h⟩ := bind_eq_ok.mp h
      cases h
      obtain ⟨hlegal, ht⟩ := ih hqs
      refine ⟨List.forall_mem_cons.mpr ⟨?_, hlegal⟩, congrArg (b :: ·) ht⟩
      simp_all [isLegal]
  | case9 b hquote hback letter hletter d₁ d₂ d₃ d₄ t h₁ h₂ h₃ h₄ ih =>
      obtain ⟨⟨qs, t'⟩, hqs, h⟩ := bind_eq_ok.mp h
      cases h
      obtain ⟨hlegal, ht⟩ := ih hqs
      have hb : b = backslash := by simpa using hback
      refine ⟨List.forall_mem_cons.mpr ⟨?_, hlegal⟩, ?_⟩
      · simp_all [isLegal]
      · rw [hb, eq_of_beq hletter, ht]
        rfl
  | case12 b hquote hback letter t hletter hshort ih =>
      obtain ⟨⟨qs, t'⟩, hqs, h⟩ := bind_eq_ok.mp h
      cases h
      obtain ⟨hlegal, ht⟩ := ih hqs
      have hb : b = backslash := by simpa using hback
      refine ⟨List.forall_mem_cons.mpr ⟨?_, hlegal⟩, ?_⟩
      · simp_all [isLegal, Option.isSome_iff_ne_none]
      · rw [hb, ht]
        rfl
  | _ => cases h

theorem length_lt_of_pieces {t rest : Text} {ps : List Piece} (h : pieces t = .ok (ps, rest)) :
    rest.length < t.length := by
  rw [(eq_of_pieces h).2, List.length_append, List.length_cons]
  omega

/-- The literals of a text in turn. A quote that is not inside a literal opens one. -/
def literals : Text → List (List Piece)
  | [] => []
  | b :: t =>
      if b == quote then
        match _h : pieces t with
        | .ok (ps, rest) => ps :: literals rest
        | .error _ => []
      else literals t
termination_by t => t.length
decreasing_by
  · exact Nat.lt_succ_of_lt (length_lt_of_pieces _h)
  · exact Nat.lt_succ_self _

/-- A text in order whose literals have paired surrogates. -/
def Sound (t : Text) : Prop := isValid t = true ∧ ∀ ps ∈ literals t, paired ps = true

instance (t : Text) : Decidable (Sound t) := inferInstanceAs (Decidable (_ ∧ _))

theorem literals_cons_of_ne {b : UInt8} (hb : b ≠ quote) (t : Text) :
    literals (b :: t) = literals t := by
  rw [literals, if_neg (by simpa using hb)]

theorem literals_quote {t rest : Text} {ps : List Piece} (h : pieces t = .ok (ps, rest)) :
    literals (quote :: t) = ps :: literals rest := by
  rw [literals, if_pos (by decide)]
  split
  · rename_i qs rest' h'
    rw [h] at h'
    cases h'
    rfl
  · rename_i h'
    rw [h] at h'
    cases h'

namespace Sound

theorem tail {b : UInt8} {t : Text} (hb : b < 0x80) (hquote : b ≠ quote) (h : Sound (b :: t)) :
    Sound t := by
  rw [Sound, isValid_cons_of_lt hb, literals_cons_of_ne hquote] at h
  exact h

/-- A literal of a text stands for a text in order, and what follows it is sound. -/
theorem pieces {t rest : Text} {ps : List Piece} (h : Sound (quote :: t))
    (hps : Literal.pieces t = .ok (ps, rest)) : isValid (decode ps) = true ∧ Sound rest := by
  obtain ⟨hvalid, hliterals⟩ := h
  obtain ⟨hlegal, rfl⟩ := eq_of_pieces hps
  rw [literals_quote hps, List.forall_mem_cons] at hliterals
  rw [isValid_cons_of_lt (by decide), isValid_append_cons (by decide), Bool.and_eq_true] at hvalid
  exact ⟨accepts_decode hlegal hliterals.1 (owes_zero 0 0) hvalid.1, hvalid.2, hliterals.2⟩

end Sound

end MusicPart.Json.Literal
