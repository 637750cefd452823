import Mathlib
import MusicPart.Quantity.Binary64
import MusicPart.Proofs.Grammar
import MusicPart.Proofs.Rereading
import MusicPart.Proofs.Surrogates

/-!
# Every document is read

A tree of the grammar is read as its value by induction on the tree: numbers and strings to their
ends first, then the elements and members of a container one after the other, with what is left of
the text after each. The blanks before a value are skipped by the reader of that value, those after
it by the reader of the container.
-/

namespace MusicPart.Json.Grammar

open Text Literal Reader

variable {α : Type} [Quantity α]

/-! ### Numbers -/

namespace Exponent

variable (e : Exponent)

theorem sign_signText_append : Numeral.sign (e.signText ++ e.digits) =
    (e.sign == some true, e.digits) := by
  obtain ⟨b, t, hdigits⟩ := List.exists_cons_of_ne_nil e.digits_ne_nil
  have hb : isDigit b = true := e.isDigit_digits b (by simp [hdigits])
  have hminus : b ≠ byte '-' := ne_of_digit hb (by decide)
  have hplus : b ≠ byte '+' := ne_of_digit hb (by decide)
  rw [signText]
  rcases e.sign with _ | _ | _
  · simp [hdigits, Numeral.sign, hminus, hplus]
  · rfl
  · rfl

/-- An exponent is read to its end. -/
theorem scale_text : Numeral.scale (byte 'e') e.text = (e.value, []) := by
  obtain ⟨b, t, hdigits⟩ := List.exists_cons_of_ne_nil e.digits_ne_nil
  have hmark : (lowerByte (if e.capital then byte 'E' else byte 'e') == byte 'e') = true := by
    cases e.capital <;> decide
  rw [text, Numeral.scale]
  simp only [hmark, if_true, sign_signText_append, span_all e.isDigit_digits, value]
  rw [hdigits]
  simp

theorem isNumberByte_of_mem {b : UInt8} (h : b ∈ e.text) : isNumberByte b = true := by
  rcases List.mem_cons.mp h with rfl | h
  · cases e.capital <;> decide
  · rcases List.mem_append.mp h with h | h
    · rw [signText] at h
      rcases hsign : e.sign with _ | _ | _ <;> rw [hsign] at h
      · cases h
      · rw [List.mem_singleton.mp h]
        decide
      · rw [List.mem_singleton.mp h]
        decide
    · exact isNumberByte_of_digit (e.isDigit_digits b h)

end Exponent

namespace Number

variable (n : Number)

theorem ends_scaleText : Numeral.Decimal.Ends n.scaleText := by
  rw [scaleText]
  cases n.exponent with
  | none => simp [Numeral.Decimal.Ends]
  | some e =>
      rintro b ⟨⟩
      cases e.capital <;> decide

theorem scale_scaleText : Numeral.scale (byte 'e') n.scaleText =
    ((n.exponent.map Exponent.value).getD 0, []) := by
  rw [scaleText]
  cases n.exponent with
  | none => rfl
  | some e => exact e.scale_text

theorem read?_text : Numeral.read? n.text =
    some (.decimal n.negative (digitsValue (n.whole ++ n.fraction)) n.scale, []) := by
  rw [text, n.read?_text_append n.ends_scaleText, scale_scaleText]
  rfl

theorem finite?_text (h : Quantity.isFinite (n.value : α) = true) :
    Numeral.finite? n.text = some (n.value : α) := by
  rw [Numeral.finite?, Numeral.whole?, Numeral.start?, read?_text]
  exact Option.filter_some_pos h

/-- A number is read to its end if what follows cannot go on with it. -/
theorem value_text_append (h : Quantity.isFinite (n.value : α) = true) (levels : Nat) {rest : Text}
    (hrest : Delimited rest) :
    (Reader.value (levels + 1) (n.text ++ rest)).toOption =
      some (.number (n.value : α), rest) := by
  obtain ⟨b, t, ht, hstart, hbytes⟩ := exists_text_eq n.toDecimal
  have hnumber : ∀ c ∈ n.text, isNumberByte c = true := by
    intro c hc
    rw [text, ht, scaleText] at hc
    rcases List.mem_append.mp hc with hc | hc
    · exact hbytes c hc
    · cases hexponent : n.exponent with
      | none => simp [hexponent] at hc
      | some e => exact e.isNumberByte_of_mem (by simpa [hexponent] using hc)
  have htext : n.text ++ rest = b :: (t ++ n.scaleText ++ rest) := by
    rw [text, ht]
    rfl
  rw [htext, value_of_startsNumber hstart, ← htext, number_append hnumber hrest, n.finite?_text h]
  rfl

end Number

/-! ### Strings -/

theorem Allowed.isLegal {p : Piece} (h : Allowed p) : isLegal p = true := by
  cases h with
  | plain _ hquote hbackslash => simp [Literal.isLegal, hquote, hbackslash]
  | short h =>
      have hshorts : shorts.all (fun m => Literal.isLegal (.short m.1)) = true := by decide
      exact List.all_eq_true.mp hshorts _ h
  | unit h => simpa [Literal.isLegal, and_assoc] using h

theorem Allowed.exists_short?_eq {letter : UInt8} (h : Allowed (.short letter)) :
    ∃ b, short? letter = some b ∧ (letter, b) ∈ shorts := by
  cases h with
  | short h =>
      have hshorts : shorts.all (fun m => short? m.1 == some m.2) = true := by decide
      exact ⟨_, beq_iff_eq.mp (List.all_eq_true.mp hshorts _ h), h⟩

namespace Str

variable (s : Str)

omit [Quantity α] in
theorem read_text_append (rest : Text) :
    Literal.read (s.text ++ rest) = .ok (decode s.pieces, rest) := by
  have hlegal : ∀ p ∈ s.pieces, isLegal p = true := fun p hp => (s.allowed p hp).isLegal
  rw [text, List.cons_append, List.append_assoc, List.singleton_append, read_written hlegal]

theorem value_text_append (levels : Nat) (rest : Text) :
    (Reader.value (levels + 1) (s.text ++ rest) : Except Failure (Value α × Text)) =
      .ok (.string (decode s.pieces), rest) := by
  have hread := s.read_text_append rest
  rw [text, List.cons_append] at hread ⊢
  rw [Reader.value, skip_cons (by decide)]
  simp only [hread]
  rfl

end Str

omit [Quantity α] in
theorem exists_char_eq {n : Nat} (h : Utf8.IsScalar n) : ∃ x : Char, n = x.toNat := by
  have hvalid : n.isValidChar := by
    rw [Utf8.IsScalar] at h
    rw [Nat.isValidChar]
    omega
  exact ⟨Char.ofNat n, by rw [Char.toNat_ofNat, if_pos hvalid]⟩

/-- Codes are encoded as characters are. -/
theorem encode_toNat (x : Char) : Utf8.encode x.toNat = String.utf8EncodeChar x := by
  have hlt : x.toNat < 0x110000 := by
    have hvalid := x.valid
    rw [UInt32.isValidChar, Nat.isValidChar] at hvalid
    change x.val.toNat < _
    omega
  have hshift (k : Nat) : x.toNat >>> k = x.toNat / 2 ^ k := Nat.shiftRight_eq_div_pow _ k
  have hbyte {m n : Nat} (h : m = n) : m.toUInt8 = UInt8.ofNat n := h ▸ rfl
  change _ = if x.toNat ≤ 127 then _ else if x.toNat ≤ 2047 then _ else
    if x.toNat ≤ 65535 then _ else _
  simp only [Utf8.encode, Utf8.tail, hshift, ← Nat.lt_succ_iff]
  split_ifs with hone htwo hthree
  · rfl
  · rw [hbyte (show 0xC0 + x.toNat / 2 ^ 6 = x.toNat / 64 % 32 + 192 by omega),
      hbyte (show 0x80 + x.toNat / 2 ^ 0 % 64 = x.toNat % 64 + 128 by omega)]
    rfl
  · rw [hbyte (show 0xE0 + x.toNat / 2 ^ 12 = x.toNat / 4096 % 16 + 224 by omega),
      hbyte (show 0x80 + x.toNat / 2 ^ 6 % 64 = x.toNat / 64 % 64 + 128 by omega),
      hbyte (show 0x80 + x.toNat / 2 ^ 0 % 64 = x.toNat % 64 + 128 by omega)]
    rfl
  · rw [hbyte (show 0xF0 + x.toNat / 2 ^ 18 = x.toNat / 262144 % 8 + 240 by omega),
      hbyte (show 0x80 + x.toNat / 2 ^ 12 % 64 = x.toNat / 4096 % 64 + 128 by omega),
      hbyte (show 0x80 + x.toNat / 2 ^ 6 % 64 = x.toNat / 64 % 64 + 128 by omega),
      hbyte (show 0x80 + x.toNat / 2 ^ 0 % 64 = x.toNat % 64 + 128 by omega)]
    rfl

/-- Pieces of paired surrogates are decoded to the text that they spell. -/
theorem spells_decode {ps : List Piece} (hallowed : ∀ p ∈ ps, Allowed p)
    (hpaired : paired ps = true) : Spells ps (decode ps) := by
  induction ps using paired.induct with
  | case1 => exact .nil
  | case2 b ps ih =>
      obtain ⟨-, hallowed⟩ := List.forall_mem_cons.mp hallowed
      rw [decode]
      exact .plain (ih hallowed hpaired)
  | case3 letter ps ih =>
      obtain ⟨hshort, hallowed⟩ := List.forall_mem_cons.mp hallowed
      obtain ⟨b, hb, hmem⟩ := hshort.exists_short?_eq
      rw [decode, hb]
      exact .short hmem (ih hallowed hpaired)
  | case4 a b c d a' b' c' d' ps hhigh ih =>
      obtain ⟨-, hallowed⟩ := List.forall_mem_cons.mp hallowed
      obtain ⟨-, hallowed⟩ := List.forall_mem_cons.mp hallowed
      rw [paired, if_pos hhigh, Bool.and_eq_true] at hpaired
      obtain ⟨x, hx⟩ := exists_char_eq (isScalar_of_pair hhigh hpaired.1)
      simp only [decode, hhigh, hpaired.1, Bool.not_true, Bool.false_eq_true, if_false, if_true]
      rw [hx, encode_toNat]
      exact .pair hhigh hpaired.1 hx (ih hallowed hpaired.2)
  | case5 a b c d a' b' c' d' ps hhigh ih =>
      obtain ⟨-, hallowed⟩ := List.forall_mem_cons.mp hallowed
      rw [Bool.not_eq_true] at hhigh
      rw [paired, hhigh, if_neg Bool.false_ne_true, Bool.and_eq_true, Bool.not_eq_true'] at hpaired
      obtain ⟨x, hx⟩ :=
        exists_char_eq (isScalar_of_not_surrogate (code_lt a b c d) hhigh hpaired.1)
      simp only [decode, hhigh, Bool.not_false, if_true]
      rw [hx, encode_toNat]
      exact .unit hx (ih hallowed hpaired.2)
  | case6 a b c d ps hnot ih =>
      obtain ⟨-, hallowed⟩ := List.forall_mem_cons.mp hallowed
      rw [paired.eq_5 _ _ _ _ _ hnot, Bool.and_eq_true, Bool.and_eq_true, Bool.not_eq_true',
        Bool.not_eq_true'] at hpaired
      obtain ⟨x, hx⟩ :=
        exists_char_eq (isScalar_of_not_surrogate (code_lt a b c d) hpaired.1.1 hpaired.1.2)
      rw [decode.eq_5 _ _ _ _ _ hnot, hx, encode_toNat]
      exact .unit hx (ih hallowed hpaired.2)

/-! ### Trees -/

omit [Quantity α] in
theorem Gap.skip_append (gap : Gap) (t : Text) : skip (gap.text ++ t) = skip t := by
  refine Reader.skip_append (fun b hb => ?_) t
  have hspaces : ([0x20, 0x09, 0x0A, 0x0D] : Text).all isSpace = true := by decide
  exact List.all_eq_true.mp hspaces b (gap.blank hb)

omit [Quantity α] in
theorem Gap.skip_append_cons (gap : Gap) {b : UInt8} (hb : isSpace b = false) (t : Text) :
    skip (gap.text ++ b :: t) = b :: t := (gap.skip_append _).trans (skip_cons hb t)

omit [Quantity α] in
theorem Gap.skip_text (gap : Gap) : skip gap.text = [] := by
  rw [← List.append_nil gap.text, gap.skip_append]
  rfl

theorem Gap.delimited_append (gap : Gap) {t : Text} (ht : Delimited t) :
    Delimited (gap.text ++ t) := by
  have hblanks : ([0x20, 0x09, 0x0A, 0x0D] : Text).all (!isNumberByte ·) = true := by decide
  cases hgap : gap.text with
  | nil => exact ht
  | cons b s =>
      have hb := List.all_eq_true.mp hblanks b (gap.blank (by simp [hgap]))
      exact .cons (by simpa using hb) _

theorem Tree.exists_text_eq : ∀ v : Tree,
    ∃ b t, v.text = b :: t ∧ isSpace b = false ∧ b ≠ byte ']'
  | .null => ⟨_, _, rfl, by decide⟩
  | .bool true => ⟨_, _, rfl, by decide⟩
  | .bool false => ⟨_, _, rfl, by decide⟩
  | .number n => by
      obtain ⟨b, t, ht, hstart, -⟩ := Reader.exists_text_eq n.toDecimal
      exact ⟨b, t ++ n.scaleText, by rw [text, Number.text, ht]; rfl, startsNumber_spec hstart⟩
  | .string _ => ⟨_, _, rfl, by decide⟩
  | .emptyArray _ => ⟨_, _, rfl, by decide⟩
  | .array _ _ _ _ => ⟨_, _, rfl, by decide⟩
  | .emptyObject _ => ⟨_, _, rfl, by decide⟩
  | .object _ _ _ _ _ _ _ => ⟨_, _, rfl, by decide⟩

/-- Every text that begins with the tree is read as its value, with so many levels. -/
def Reads (α : Type) [Quantity α] (levels : Nat) (v : Tree) : Prop :=
  ∀ rest, Delimited rest → (Reader.value levels (v.text ++ rest)).toOption =
    some ((v.value : Value α), rest)

namespace Reads

variable {levels : Nat} {v : Tree}

/-- A value is read up to the blanks that stand between it and a byte that does not go on with
it. -/
theorem value_between (h : Reads α levels v) (after : Gap) {b : UInt8}
    (hb : isNumberByte b = false) (hspace : isSpace b = false) {t rest : Text}
    (ht : skip t = skip (v.text ++ (after.text ++ b :: rest))) :
    (Reader.value levels t).toOption = some ((v.value : Value α), after.text ++ b :: rest) ∧
      skip (after.text ++ b :: rest) = b :: rest := by
  refine ⟨?_, after.skip_append_cons hspace rest⟩
  rw [value_of_skip ht, h _ (after.delimited_append (.cons hb rest))]

/-- An element is read, and what the byte behind it says is done. -/
theorem elements_succ (h : Reads α levels v) (after : Gap) {b : UInt8}
    (hb : isNumberByte b = false) (hspace : isSpace b = false) {t rest : Text}
    (ht : skip t = skip (v.text ++ (after.text ++ b :: rest))) (n : Nat) :
    (elements (Reader.value levels) (n + 1) t).toOption =
      (if b == byte ',' then do
        let (vs, rest) ← elements (Reader.value levels) n rest
        return ((v.value : Value α) :: vs, rest)
      else if b == byte ']' then return ([v.value], rest)
      else .error ⟨.expectedElement, b :: rest⟩).toOption := by
  obtain ⟨hvalue, hskip⟩ := h.value_between after hb hspace ht
  rw [elements, toOption_bind, hvalue]
  simp only [Option.bind_some, hskip]

/-- A member is read into those before it, and what the byte behind it says is done. -/
theorem members_succ (h : Reads α levels v) (key : Str) (left right after : Gap) {b : UInt8}
    (hb : isNumberByte b = false) (hspace : isSpace b = false) {t rest : Text}
    (ht : skip t = skip (key.text ++ (left.text ++ byte ':' :: (right.text ++ (v.text ++
      (after.text ++ b :: rest)))))) (n : Nat) (done : List (Text × Value α)) :
    (members (Reader.value levels) (n + 1) done t).toOption =
      (if b == byte ',' then members (Reader.value levels) n
        (Value.insert (decode key.pieces) v.value done) rest
      else if b == 0x7D then return (Value.insert (decode key.pieces) v.value done, rest)
      else .error ⟨.expectedMember, b :: rest⟩).toOption := by
  have hquote (s : Text) : skip (key.text ++ s) = key.text ++ s := skip_cons (by decide) _
  have hcolon (s : Text) : skip (left.text ++ byte ':' :: s) = byte ':' :: s :=
    left.skip_append_cons (by decide) s
  obtain ⟨hvalue, hskip⟩ := h.value_between after hb hspace
    (right.skip_append (v.text ++ (after.text ++ b :: rest)))
  rw [members, ht, hquote, toOption_bind, key.read_text_append]
  change (Except.toOption _) = _
  simp only [hcolon, bne_self_eq_false, Bool.false_eq_true, if_false, toOption_bind, hvalue,
    Option.bind_some, hskip]

end Reads

mutual

/-- Reading takes as much of a text as belongs to a tree. -/
theorem Tree.value_text : ∀ (v : Tree) (levels : Nat), v.depth < levels →
    (∀ n ∈ v.numbers, Quantity.isFinite (n.value : α) = true) → Reads α levels v
  | .null, levels + 1, _, _, rest, _ => congrArg Except.toOption (value_literal levels rest).1
  | .bool true, levels + 1, _, _, rest, _ =>
      congrArg Except.toOption (value_literal levels rest).2.1
  | .bool false, levels + 1, _, _, rest, _ =>
      congrArg Except.toOption (value_literal levels rest).2.2
  | .number n, levels + 1, _, hfinite, _, hrest =>
      n.value_text_append (hfinite n (by simp [Tree.numbers])) levels hrest
  | .string s, levels + 1, _, _, rest, _ =>
      congrArg Except.toOption (s.value_text_append levels rest)
  | .emptyArray gap, levels + 1, _, _, rest, _ => by
      rw [Tree.text, List.cons_append, List.append_assoc, List.singleton_append]
      change (array (Reader.value levels) (gap.text ++ byte ']' :: rest)).toOption = _
      rw [array, gap.skip_append_cons (by decide)]
      rfl
  | .array before first after others, levels + 1, hdepth, hfinite, rest, _ => by
      -- The first byte of an element does not close the array and is not skipped.
      obtain ⟨b, t, ht, hspace, hb⟩ := first.exists_text_eq
      rw [Tree.depth, max_lt_iff] at hdepth
      rw [Tree.numbers, List.forall_mem_append] at hfinite
      have hskip : skip (before.text ++ (first.text ++ (after.text ++ (others.text ++
          byte ']' :: rest)))) =
          first.text ++ (after.text ++ (others.text ++ byte ']' :: rest)) := by
        rw [before.skip_append, ht, List.cons_append, skip_cons hspace]
      have helements := others.elements_text first after levels rest _
        ((before.text ++ (first.text ++ (after.text ++ (others.text ++
          byte ']' :: rest)))).length + 1) (first.value_text levels (by omega) hfinite.1)
        (by omega) hfinite.2 (by simp only [List.length_append]; omega) rfl
      simp only [Tree.text, List.cons_append, List.append_assoc, List.nil_append]
      change (array (Reader.value levels) _).toOption = _
      rw [array_of_skip _ (hskip.trans (by rw [ht, List.cons_append])) hb, hskip, helements]
      rfl
  | .emptyObject gap, levels + 1, _, _, rest, _ => by
      rw [Tree.text, List.cons_append, List.append_assoc, List.singleton_append]
      change (object (Reader.value levels) (gap.text ++ 0x7D :: rest)).toOption = _
      rw [object, gap.skip_append_cons (by decide)]
      rfl
  | .object before key left right first after others, levels + 1, hdepth, hfinite, rest, _ => by
      rw [Tree.depth, max_lt_iff] at hdepth
      rw [Tree.numbers, List.forall_mem_append] at hfinite
      have hskip : skip (before.text ++ (key.text ++ (left.text ++ byte ':' :: (right.text ++
          (first.text ++ (after.text ++ (others.text ++ 0x7D :: rest))))))) =
          key.text ++ (left.text ++ byte ':' :: (right.text ++ (first.text ++ (after.text ++
            (others.text ++ 0x7D :: rest))))) :=
        before.skip_append_cons (by decide) _
      have hmembers := others.members_text key left right first after levels rest _
        ((before.text ++ (key.text ++ (left.text ++ byte ':' :: (right.text ++
          (first.text ++ (after.text ++ (others.text ++ 0x7D :: rest))))))).length + 1) []
        (first.value_text levels (by omega) hfinite.1) (by omega) hfinite.2
        (by simp only [List.length_append, List.length_cons]; omega) rfl
      simp only [Tree.text, List.cons_append, List.append_assoc, List.nil_append]
      change (object (Reader.value levels) _).toOption = _
      rw [object_of_skip _ (hskip.trans List.cons_append) (by decide), hskip, hmembers,
        foldl_insert]
      rfl

/-- The elements are read one by one; what is left after each is the text of the others. -/
theorem Elements.elements_text : ∀ (others : Elements) (first : Tree) (after : Gap) (levels : Nat)
    (rest t : Text) (n : Nat), Reads α levels first → others.depth ≤ levels →
      (∀ n ∈ others.numbers, Quantity.isFinite (n.value : α) = true) → others.text.length < n →
      skip t = skip (first.text ++ (after.text ++ (others.text ++ byte ']' :: rest))) →
      (elements (Reader.value levels) n t).toOption =
        some ((first.value : Value α) :: others.values, rest)
  | .nil, first, after, levels, rest, t, n + 1, hfirst, _, _, _, hskip =>
      (hfirst.elements_succ after (by decide) (by decide) hskip n).trans rfl
  | .cons before v after' others, first, after, levels, rest, t, n + 1, hfirst, hdepth, hfinite, hn,
      hskip => by
      have hdepths := max_le_iff.mp hdepth
      rw [Elements.numbers, List.forall_mem_append] at hfinite
      simp only [Elements.text, List.cons_append, List.append_assoc, List.length_cons,
        List.length_append] at hn hskip
      -- What is left starts with the blanks before the next element, which its reader skips.
      have hmore := others.elements_text v after' levels rest
        (before.text ++ (v.text ++ (after'.text ++ (others.text ++ byte ']' :: rest)))) n
        (v.value_text levels hdepths.1 hfinite.1) hdepths.2 hfinite.2 (by omega)
        (before.skip_append _)
      rw [hfirst.elements_succ after (by decide) (by decide) hskip, if_pos (by decide),
        toOption_bind, hmore]
      rfl

/-- The members are read one by one into those before them. -/
theorem Members.members_text : ∀ (others : Members) (key : Str) (left right : Gap) (first : Tree)
    (after : Gap) (levels : Nat) (rest t : Text) (n : Nat) (done : List (Text × Value α)),
      Reads α levels first → others.depth ≤ levels →
      (∀ n ∈ others.numbers, Quantity.isFinite (n.value : α) = true) → others.text.length < n →
      skip t = skip (key.text ++ (left.text ++ byte ':' :: (right.text ++ (first.text ++
        (after.text ++ (others.text ++ 0x7D :: rest)))))) →
      (members (Reader.value levels) n done t).toOption =
        some (((decode key.pieces, first.value) :: others.pairs).foldl
          (fun done m => Value.insert m.1 m.2 done) done, rest)
  | .nil, key, left, right, first, after, levels, rest, t, n + 1, done, hfirst, _, _, _, hskip =>
      (hfirst.members_succ key left right after (by decide) (by decide) hskip n done).trans rfl
  | .cons before key' left' right' v after' others, key, left, right, first, after, levels, rest, t,
      n + 1, done, hfirst, hdepth, hfinite, hn, hskip => by
      have hdepths := max_le_iff.mp hdepth
      rw [Members.numbers, List.forall_mem_append] at hfinite
      simp only [Members.text, List.cons_append, List.append_assoc, List.length_cons,
        List.length_append] at hn hskip
      have hmore := others.members_text key' left' right' v after' levels rest
        (before.text ++ (key'.text ++ (left'.text ++ byte ':' :: (right'.text ++ (v.text ++
          (after'.text ++ (others.text ++ 0x7D :: rest))))))) n
        (Value.insert (decode key.pieces) first.value done)
        (v.value_text levels hdepths.1 hfinite.1) hdepths.2 hfinite.2 (by omega)
        (before.skip_append _)
      rw [hfirst.members_succ key left right after (by decide) (by decide) hskip,
        if_pos (by decide), hmore]
      rfl

end

/-! ### Documents -/

/-- Every document of the grammar is read as its value if it nests at most 64 deep and its numbers
are finite. Its strings are decoded to what they spell if no escape is half of a pair. -/
theorem parse_text (d : Document) (hdepth : d.root.depth ≤ 64)
    (hfinite : ∀ n ∈ d.root.numbers, Quantity.isFinite (n.value : α) = true) :
    parse d.text = .ok (d.root.value : Value α) ∧
      ∀ s ∈ d.root.strings, paired s.pieces = true → Spells s.pieces (decode s.pieces) := by
  refine ⟨?_, fun s _ hpaired => spells_decode s.allowed hpaired⟩
  obtain ⟨b, t, ht, hspace, -⟩ := d.root.exists_text_eq
  have hend : Delimited d.after.text :=
    List.append_nil d.after.text ▸ d.after.delimited_append (by simp [Delimited])
  have hvalue : (Reader.value (maxDepth + 1) d.text).toOption =
      some ((d.root.value : Value α), d.after.text) := by
    rw [← d.root.value_text (maxDepth + 1) (Nat.lt_succ_of_le hdepth) hfinite _ hend]
    refine value_of_skip ?_ _
    rw [Document.text, List.append_assoc, d.before.skip_append]
  rw [← toOption_eq_some, toOption_parse, Reader.document, if_neg (by simp [Document.text, ht]),
    toOption_bind, hvalue]
  simp only [Option.bind_some, d.after.skip_text]
  rfl

/-- The number `-0.5E+1`. -/
def sampleNumber : Number where
  negative := true
  whole := [byte '0']
  fraction := [byte '5']
  whole_ne_nil := List.cons_ne_nil _ _
  whole_digits := List.forall_mem_singleton.mpr (by decide)
  fraction_digits := List.forall_mem_singleton.mpr (by decide)
  no_leading_zero := fun _ => rfl
  exponent := some ⟨true, some false, [byte '1'], List.cons_ne_nil _ _,
    List.forall_mem_singleton.mpr (by decide)⟩

/-- The two escapes of one character. -/
def sampleString : Str where
  pieces := [.unit (byte 'd') (byte '8') (byte '3') (byte '4'),
    .unit (byte 'D') (byte 'D') (byte '1') (byte 'E')]
  allowed := List.forall_mem_cons.mpr ⟨.unit (by decide), List.forall_mem_singleton.mpr
    (.unit (by decide))⟩

/-- Blanks at all places, and two members with the empty key around one with another key. -/
def sample : Document :=
  let space : Gap := ⟨[0x20, 0x09, 0x0A, 0x0D], List.Subset.refl _⟩
  let key : Str := ⟨[], List.forall_mem_nil _⟩
  ⟨space, .object space key space space .null space
    (.cons space sampleString space space (.array space (.number sampleNumber) space
      (.cons space (.emptyObject space) space .nil)) space
    (.cons space key space space (.bool true) space .nil)), space⟩

theorem parse_text_sample : sample.root.depth ≤ 64 ∧
    (∀ n ∈ sample.root.numbers, Quantity.isFinite (n.value : Float) = true) ∧
    parse sample.text = .ok (.object [([], .bool true),
      ([0xF0, 0x9D, 0x84, 0x9E], .array [.number (-5.0 : Float), .object []])]) ∧
    paired sampleString.pieces = true ∧
    Spells sampleString.pieces [0xF0, 0x9D, 0x84, 0x9E] := by
  have hdepth : sample.root.depth ≤ 64 := by decide
  have hfinite : ∀ n ∈ sample.root.numbers, Quantity.isFinite (n.value : Float) = true :=
    List.forall_mem_singleton.mpr (by decide)
  have hnumber : (sampleNumber.value : Float) = -5.0 := by decide
  have hmem : sampleString ∈ sample.root.strings :=
    List.mem_cons_of_mem _ List.mem_cons_self
  have hpaired : paired sampleString.pieces = true := by decide
  obtain ⟨hparse, hstrings⟩ := parse_text sample hdepth hfinite
  refine ⟨hdepth, hfinite, hparse.trans ?_, hpaired, hstrings sampleString hmem hpaired⟩
  rw [← hnumber]
  rfl

end MusicPart.Json.Grammar
