import Mathlib
import MusicPart.Json.Reader
import MusicPart.Proofs.Layouts
import MusicPart.Proofs.Literals
import MusicPart.Proofs.Numerals

/-!
# Reading what was written

`reread?` says by recursion on a value what the reader makes of its text: numbers are rounded to
six places, those that are not finite become null, and members of one object with one key become
one. Only a number that rounding takes out of the finite range leaves a text that is not read. The
layout of the text makes no difference.
-/

namespace MusicPart.Json

open Text

theorem toOption_bind {ε β γ : Type} (x : Except ε β) (f : β → Except ε γ) :
    (x >>= f).toOption = x.toOption.bind fun a => (f a).toOption := by
  cases x <;> rfl

theorem toOption_eq_some {ε β : Type} {x : Except ε β} {b : β} :
    x.toOption = some b ↔ x = .ok b := by
  cases x <;> simp [Except.toOption]

namespace Value

variable {α : Type}

/-! ### What is inside a value -/

mutual

/-- The number of containers around the innermost value. -/
def depth : Value α → Nat
  | .array es => elementsDepth es
  | .object ms => membersDepth ms
  | _ => 0

def elementsDepth : List (Value α) → Nat
  | [] => 0
  | v :: vs => max (depth v + 1) (elementsDepth vs)

def membersDepth : List (Text × Value α) → Nat
  | [] => 0
  | (_, v) :: ms => max (depth v + 1) (membersDepth ms)

end

mutual

/-- A value with all that is inside it. -/
def parts : Value α → List (Value α)
  | .array es => .array es :: elementsParts es
  | .object ms => .object ms :: membersParts ms
  | v => [v]

def elementsParts : List (Value α) → List (Value α)
  | [] => []
  | v :: vs => parts v ++ elementsParts vs

def membersParts : List (Text × Value α) → List (Value α)
  | [] => []
  | (_, v) :: ms => parts v ++ membersParts ms

end

/-! ### What is read -/

variable [Quantity α]

/-- A finite number that rounding to six places takes out of the finite range. -/
def overflows (x : α) : Bool :=
  Quantity.isFinite x && !Quantity.isFinite (Quantity.roundTo 1e6 x)

def rereadNumber? (x : α) : Option (Value α) :=
  if !Quantity.isFinite x then some .null
  else if overflows x then none
  else (Numeral.finite? (SixPlaces.render x)).map .number

mutual

/-- The value that is read where a value was written. -/
def reread? : Value α → Option (Value α)
  | .null => some .null
  | .bool b => some (.bool b)
  | .number x => rereadNumber? x
  | .string s => some (.string s)
  | .array es => (rereadElements? es).map .array
  | .object ms => (rereadMembers? [] ms).map .object

def rereadElements? : List (Value α) → Option (List (Value α))
  | [] => some []
  | v :: vs => do return (← reread? v) :: (← rereadElements? vs)

/-- The members, put into those read before them. -/
def rereadMembers? (done : List (Text × Value α)) :
    List (Text × Value α) → Option (List (Text × Value α))
  | [] => some done
  | (key, v) :: ms => do rereadMembers? (insert key (← reread? v) done) ms

end

end Value

/-! ### Blanks and delimiters -/

namespace Reader

variable {α : Type}

theorem skip_append {s : Text} (h : ∀ b ∈ s, isSpace b = true) (t : Text) :
    skip (s ++ t) = skip t := List.dropWhile_append_of_pos h

theorem skip_cons {b : UInt8} (h : isSpace b = false) (t : Text) : skip (b :: t) = b :: t := by
  rw [skip, List.dropWhile_cons_of_neg (by simp [h])]

/-- A text that does not go on with a number. -/
def Delimited (rest : Text) : Prop := ∀ b ∈ rest.head?, isNumberByte b = false

theorem Delimited.cons {b : UInt8} (h : isNumberByte b = false) (t : Text) :
    Delimited (b :: t) := by
  rintro c ⟨⟩
  exact h

theorem isSpace_of_mem_lineBreak {indent : Int} {level : Nat} {b : UInt8}
    (h : b ∈ lineBreak indent level) : isSpace b = true := by
  rw [lineBreak] at h
  split_ifs at h
  · rcases List.mem_cons.mp h with rfl | h
    · decide
    · rw [List.eq_of_mem_replicate h]
      decide
  · simp at h

theorem delimited_lineBreak (indent : Int) (level : Nat) {b : UInt8} (hb : isNumberByte b = false)
    (t : Text) : Delimited (lineBreak indent level ++ b :: t) := by
  rw [lineBreak]
  split_ifs
  · exact .cons (by decide) _
  · exact .cons hb t

theorem literal_append (word : Text) (v : Value α) (rest : Text) :
    literal word v (word ++ rest) = .ok (v, rest) := by
  simp [literal]

theorem array_of_skip (value : Text → Except Failure (Value α × Text)) {t rest : Text} {b : UInt8}
    (h : skip t = b :: rest) (hb : b ≠ byte ']') : (array value t).toOption =
      (elements value (t.length + 1) (skip t)).toOption.map fun p => (.array p.1, p.2) := by
  have hb : (b == byte ']') = false := by simpa using hb
  rw [array, h]
  simp only [hb, Bool.false_eq_true, if_false]
  cases elements value (t.length + 1) (b :: rest) <;> rfl

theorem object_of_skip (value : Text → Except Failure (Value α × Text)) {t rest : Text} {b : UInt8}
    (h : skip t = b :: rest) (hb : b ≠ 0x7D) : (object value t).toOption =
      (members value (t.length + 1) [] (skip t)).toOption.map fun p => (.object p.1, p.2) := by
  have hb : (b == 0x7D) = false := by simpa using hb
  rw [object, h]
  simp only [hb, Bool.false_eq_true, if_false]
  cases members value (t.length + 1) [] (b :: rest) <;> rfl

variable [Quantity α]

theorem value_of_skip {t t' : Text} (h : skip t = skip t') (levels : Nat) :
    (value levels t : Except Failure (Value α × Text)).toOption = (value levels t').toOption := by
  cases levels with
  | zero => rfl
  | succ levels => rw [value, value, h]

/-! ### Scalars -/

theorem value_literal (levels : Nat) (rest : Text) :
    (value (levels + 1) (ofString "null" ++ rest) : Except Failure (Value α × Text)) =
        .ok (.null, rest) ∧
      (value (levels + 1) (ofString "true" ++ rest) : Except Failure (Value α × Text)) =
        .ok (.bool true, rest) ∧
      (value (levels + 1) (ofString "false" ++ rest) : Except Failure (Value α × Text)) =
        .ok (.bool false, rest) :=
  ⟨literal_append (ofString "null") .null rest, literal_append (ofString "true") (.bool true) rest,
    literal_append (ofString "false") (.bool false) rest⟩

theorem value_string (levels : Nat) (s rest : Text) :
    (value (levels + 1) (Literal.render s ++ rest) : Except Failure (Value α × Text)) =
      .ok (.string s, rest) := by
  have hread := Literal.read_render s rest
  rw [Literal.render, List.cons_append] at hread ⊢
  rw [value, skip_cons (by decide)]
  simp only [hread]
  rfl

/-- The bytes that a number may start with, and one that no value starts with. -/
def startsNumber (b : UInt8) : Bool := isDigit b || b == byte '-' || b == byte 'i'

theorem value_of_startsNumber {b : UInt8} (h : startsNumber b = true) (levels : Nat) (t : Text) :
    (value (levels + 1) (b :: t) : Except Failure (Value α × Text)) = number (b :: t) := by
  simp only [startsNumber, Bool.or_eq_true, beq_iff_eq] at h
  rcases h with (h | rfl) | rfl
  · have hother (c : UInt8) (hc : isDigit c = false) : (b == c) = false := by
      simpa using ne_of_digit h hc
    rw [value, skip_cons (isSpace_digit h)]
    simp only [hother _ (show isDigit 0x7B = false by decide),
      hother _ (show isDigit (byte '[') = false by decide),
      hother _ (show isDigit Literal.quote = false by decide),
      hother _ (show isDigit (byte 't') = false by decide),
      hother _ (show isDigit (byte 'f') = false by decide),
      hother _ (show isDigit (byte 'n') = false by decide), Bool.false_eq_true, if_false]
  · rfl
  · rfl

theorem number_append {s rest : Text} (h : ∀ b ∈ s, isNumberByte b = true)
    (hrest : Delimited rest) : (number (s ++ rest) : Except Failure (Value α × Text)).toOption =
      (Numeral.finite? s).map fun x => (.number x, rest) := by
  rw [number, span_of_forall h hrest]
  dsimp only
  cases (Numeral.finite? s : Option α) <;> rfl

theorem isNumberByte_of_digit {b : UInt8} (h : isDigit b = true) : isNumberByte b = true := by
  simp [isNumberByte, h]

theorem exists_text_eq (d : Numeral.Decimal) :
    ∃ b t, d.text = b :: t ∧ startsNumber b = true ∧ ∀ c ∈ b :: t, isNumberByte c = true := by
  obtain ⟨b, t, hb, ht⟩ := d.exists_unsigned_eq
  have hbytes : ∀ c ∈ d.unsigned, isNumberByte c = true := by
    intro c hc
    rcases d.mem_unsigned hc with hc | rfl
    · exact isNumberByte_of_digit hc
    · decide
  rw [Numeral.Decimal.text]
  cases d.negative with
  | false => exact ⟨b, t, ht, by simp [startsNumber, hb], ht ▸ hbytes⟩
  | true =>
      refine ⟨byte '-', d.unsigned, rfl, by decide, ?_⟩
      intro c hc
      rcases List.mem_cons.mp hc with rfl | hc
      · decide
      · exact hbytes c hc

theorem value_infinite (levels : Nat) (rest : Text) :
    (value (levels + 1) (ofString "inf" ++ rest) : Except Failure (Value α × Text)).toOption =
        none ∧
      (value (levels + 1) (ofString "-inf" ++ rest) : Except Failure (Value α × Text)).toOption =
        none := by
  have hword : Delimited (ofString "inf" ++ rest) := .cons (by decide) _
  constructor
  · refine (congrArg Except.toOption (value_of_startsNumber (by decide) levels _)).trans ?_
    refine (number_append (s := []) (by simp) hword).trans ?_
    rfl
  · refine (congrArg Except.toOption (value_of_startsNumber (by decide) levels _)).trans ?_
    have hminus : ∀ b ∈ [byte '-'], isNumberByte b = true :=
      List.forall_mem_singleton.mpr (by decide)
    refine (number_append hminus hword).trans ?_
    rfl

theorem value_number (x : α) (levels : Nat) {rest : Text} (hrest : Delimited rest) :
    (value (levels + 1) (SixPlaces.render x ++ rest) :
        Except Failure (Value α × Text)).toOption =
      (Value.rereadNumber? x).map (·, rest) := by
  by_cases hx : Quantity.isFinite x = true
  · by_cases hrounded : Quantity.isFinite (Quantity.roundTo 1e6 x) = true
    · obtain ⟨d, hd, -, -⟩ := SixPlaces.exists_render_eq hx hrounded
      obtain ⟨b, t, ht, hstart, hbytes⟩ := exists_text_eq d
      have hreread : Value.rereadNumber? x = (Numeral.finite? d.text).map .number := by
        simp [Value.rereadNumber?, Value.overflows, hx, hrounded, hd]
      rw [hreread, hd, ht, List.cons_append, value_of_startsNumber hstart, ← List.cons_append,
        number_append hbytes hrest, Option.map_map]
      rfl
    · have hreread : Value.rereadNumber? x = none := by
        simp [Value.rereadNumber?, Value.overflows, hx, hrounded]
      have hvalue : Quantity.value? (Quantity.roundTo 1e6 x) = none := by
        simpa [Quantity.isFinite] using hrounded
      rw [hreread, SixPlaces.render]
      simp only [hx, hvalue, Bool.not_true, Bool.false_eq_true, if_false]
      split_ifs
      · exact (value_infinite levels rest).2
      · exact (value_infinite levels rest).1
  · have hreread : Value.rereadNumber? x = some .null := by simp [Value.rereadNumber?, hx]
    have hrender : SixPlaces.render x = ofString "null" := by simp [SixPlaces.render, hx]
    rw [hreread, hrender, (value_literal levels rest).1]
    rfl

/-! ### Containers -/

theorem startsNumber_spec {b : UInt8} (h : startsNumber b = true) :
    isSpace b = false ∧ b ≠ byte ']' := by
  simp only [startsNumber, Bool.or_eq_true, beq_iff_eq] at h
  rcases h with (h | rfl) | rfl
  · exact ⟨isSpace_digit h, ne_of_digit h (by decide)⟩
  · decide
  · decide

theorem exists_render_eq_cons (x : α) :
    ∃ b t, SixPlaces.render x = b :: t ∧ isSpace b = false ∧ b ≠ byte ']' := by
  by_cases hx : Quantity.isFinite x = true
  · by_cases hrounded : Quantity.isFinite (Quantity.roundTo 1e6 x) = true
    · obtain ⟨d, hd, -, -⟩ := SixPlaces.exists_render_eq hx hrounded
      obtain ⟨b, t, ht, hstart, -⟩ := exists_text_eq d
      exact ⟨b, t, hd.trans ht, startsNumber_spec hstart⟩
    · have hvalue : Quantity.value? (Quantity.roundTo 1e6 x) = none := by
        simpa [Quantity.isFinite] using hrounded
      rw [SixPlaces.render]
      simp only [hx, hvalue, Bool.not_true, Bool.false_eq_true, if_false]
      split_ifs
      · exact ⟨_, _, rfl, by decide⟩
      · exact ⟨_, _, rfl, by decide⟩
  · have hrender : SixPlaces.render x = ofString "null" := by simp [SixPlaces.render, hx]
    exact ⟨_, _, hrender, by decide⟩

theorem exists_print_eq (indent : Int) (level : Nat) (v : Value α) :
    ∃ b t, v.print indent level = b :: t ∧ isSpace b = false ∧ b ≠ byte ']' := by
  cases v with
  | null => exact ⟨_, _, rfl, by decide⟩
  | bool b => cases b <;> exact ⟨_, _, rfl, by decide⟩
  | number x => exact exists_render_eq_cons x
  | string s => exact ⟨_, _, rfl, by decide⟩
  | array es => exact ⟨_, _, rfl, by decide⟩
  | object ms => exact ⟨_, _, rfl, by decide⟩

theorem printElements_true_cons (indent : Int) (level : Nat) (v : Value α) (vs : List (Value α)) :
    Value.printElements indent level true (v :: vs) =
      byte ',' :: Value.printElements indent level false (v :: vs) := by
  simp [Value.printElements, comma]

theorem printMembers_true_cons (indent : Int) (level : Nat) (m : Text × Value α)
    (ms : List (Text × Value α)) :
    Value.printMembers indent level true (m :: ms) =
      byte ',' :: Value.printMembers indent level false (m :: ms) := by
  simp [Value.printMembers, comma]

theorem delimited_printElements (indent : Int) (level : Nat) (vs : List (Value α)) (rest : Text) :
    Delimited (Value.printElements indent level true vs ++ rest) := by
  cases vs with
  | nil =>
      rw [Value.printElements, closing, if_pos rfl, List.append_assoc]
      exact delimited_lineBreak indent level (by decide) rest
  | cons v vs =>
      rw [printElements_true_cons]
      exact .cons (by decide) _

theorem delimited_printMembers (indent : Int) (level : Nat) (ms : List (Text × Value α))
    (rest : Text) : Delimited (Value.printMembers indent level true ms ++ rest) := by
  cases ms with
  | nil =>
      rw [Value.printMembers, closing, if_pos rfl, List.append_assoc]
      exact delimited_lineBreak indent level (by decide) rest
  | cons m ms =>
      rw [printMembers_true_cons]
      exact .cons (by decide) _

theorem skip_closing (indent : Int) (level : Nat) {bracket : UInt8} (h : isSpace bracket = false)
    (rest : Text) : skip (closing indent level true bracket ++ rest) = bracket :: rest := by
  rw [closing, if_pos rfl, List.append_assoc, skip_append fun b => isSpace_of_mem_lineBreak]
  exact skip_cons h rest

theorem skip_printElements (indent : Int) (level : Nat) (v : Value α) (vs : List (Value α))
    (rest : Text) : skip (Value.printElements indent level false (v :: vs) ++ rest) =
      v.print indent (level + 1) ++ (Value.printElements indent level true vs ++ rest) := by
  obtain ⟨b, t, ht, hb, -⟩ := exists_print_eq indent (level + 1) v
  rw [Value.printElements, comma, if_neg (by decide), List.nil_append, List.append_assoc,
    List.append_assoc, skip_append fun b => isSpace_of_mem_lineBreak, ht, List.cons_append,
    skip_cons hb]

theorem skip_printMembers (indent : Int) (level : Nat) (key : Text) (v : Value α)
    (ms : List (Text × Value α)) (rest : Text) :
    skip (Value.printMembers indent level false ((key, v) :: ms) ++ rest) =
      Literal.render key ++ (colon indent ++ (v.print indent (level + 1) ++
        (Value.printMembers indent level true ms ++ rest))) := by
  simp only [Value.printMembers, comma, Bool.false_eq_true, if_false, List.nil_append,
    List.append_assoc]
  rw [skip_append fun b => isSpace_of_mem_lineBreak, Literal.render, List.cons_append,
    skip_cons (by decide)]

theorem exists_colon_eq (indent : Int) :
    ∃ s, colon indent = byte ':' :: s ∧ ∀ b ∈ s, isSpace b = true := by
  rw [colon]
  split_ifs
  · exact ⟨[0x20], rfl, by simp [isSpace]⟩
  · exact ⟨[], rfl, by simp⟩

theorem length_le_printElements (indent : Int) (level : Nat) (nonempty : Bool)
    (vs : List (Value α)) :
    vs.length ≤ (Value.printElements indent level nonempty vs).length := by
  induction vs generalizing nonempty with
  | nil => exact Nat.zero_le _
  | cons v vs ih =>
      have hvs := ih true
      obtain ⟨b, t, ht, -⟩ := exists_print_eq indent (level + 1) v
      rw [Value.printElements, ht]
      simp only [List.length_append, List.length_cons]
      omega

theorem length_le_printMembers (indent : Int) (level : Nat) (nonempty : Bool)
    (ms : List (Text × Value α)) :
    ms.length ≤ (Value.printMembers indent level nonempty ms).length := by
  induction ms generalizing nonempty with
  | nil => exact Nat.zero_le _
  | cons m ms ih =>
      have hms := ih true
      rw [Value.printMembers, Literal.render]
      simp only [List.length_append, List.length_cons]
      omega

open Value

mutual

/-- Reading takes as much of a text as was printed for a value. -/
theorem value_print (indent : Int) : ∀ (v : Value α) (level levels : Nat) (rest : Text),
    v.depth < levels → Delimited rest →
      (value levels (v.print indent level ++ rest)).toOption = v.reread?.map (·, rest)
  | .null, _, levels + 1, rest, _, _ => congrArg Except.toOption (value_literal levels rest).1
  | .bool true, _, levels + 1, rest, _, _ =>
      congrArg Except.toOption (value_literal levels rest).2.1
  | .bool false, _, levels + 1, rest, _, _ =>
      congrArg Except.toOption (value_literal levels rest).2.2
  | .number x, _, levels + 1, _, _, hrest => value_number x levels hrest
  | .string s, _, levels + 1, rest, _, _ => congrArg Except.toOption (value_string levels s rest)
  | .array [], _, levels + 1, _, _, _ => rfl
  | .array (v :: vs), level, levels + 1, rest, hdepth, _ => by
      obtain ⟨b, t, ht, hspace, hb⟩ := exists_print_eq indent (level + 1) v
      have hskip := skip_printElements indent level v vs rest
      rw [ht, List.cons_append] at hskip
      have hlength := length_le_printElements indent level false (v :: vs)
      have helements := elements_print indent (v :: vs) level levels rest _
        ((printElements indent level false (v :: vs) ++ rest).length + 1) (by simp)
        (Nat.lt_succ_iff.mp hdepth) (by rw [List.length_append]; omega)
        ((congrArg skip hskip).trans ((skip_cons hspace _).trans hskip.symm))
      change (array (value levels)
        (printElements indent level false (v :: vs) ++ rest)).toOption = _
      rw [array_of_skip _ hskip hb, helements, reread?, Option.map_map, Option.map_map]
      rfl
  | .object [], _, levels + 1, _, _, _ => rfl
  | .object ((key, v) :: ms), level, levels + 1, rest, hdepth, _ => by
      have hskip := skip_printMembers indent level key v ms rest
      rw [Literal.render, List.cons_append] at hskip
      have hlength := length_le_printMembers indent level false ((key, v) :: ms)
      have hmembers := members_print indent ((key, v) :: ms) level levels rest _
        ((printMembers indent level false ((key, v) :: ms) ++ rest).length + 1) [] (by simp)
        (Nat.lt_succ_iff.mp hdepth) (by rw [List.length_append]; omega)
        ((congrArg skip hskip).trans ((skip_cons (by decide) _).trans hskip.symm))
      change (object (value levels)
        (printMembers indent level false ((key, v) :: ms) ++ rest)).toOption = _
      rw [object_of_skip _ hskip (by decide), hmembers, reread?, Option.map_map, Option.map_map]
      rfl

/-- The elements are read one by one; what is left after each is the text of the others. -/
theorem elements_print (indent : Int) : ∀ (es : List (Value α)) (level levels : Nat)
    (rest t : Text) (n : Nat), es ≠ [] → elementsDepth es ≤ levels → es.length < n →
      skip t = skip (printElements indent level false es ++ rest) →
      (elements (value levels) n t).toOption = (rereadElements? es).map (·, rest)
  | v :: vs, level, levels, rest, t, n + 1, _, hdepth, hn, hskip => by
      have hdepths := max_le_iff.mp hdepth
      have hvalue : (value levels t).toOption =
          v.reread?.map (·, printElements indent level true vs ++ rest) := by
        rw [← value_print indent v (level + 1) levels _ hdepths.1
          (delimited_printElements indent level vs rest)]
        rw [skip_printElements] at hskip
        refine value_of_skip (hskip.trans ?_) levels
        obtain ⟨b, t, ht, hspace, -⟩ := exists_print_eq indent (level + 1) v
        rw [ht, List.cons_append, skip_cons hspace]
      rw [elements, toOption_bind, hvalue, rereadElements?]
      cases v.reread? with
      | none => rfl
      | some w =>
          cases vs with
          | nil =>
              have hbracket : isSpace (byte ']') = false := by decide
              have hclose := skip_closing indent level hbracket rest
              simp only [Option.map_some, Option.bind_some, printElements, hclose]
              rfl
          | cons v' vs =>
              have hmore := elements_print indent (v' :: vs) level levels rest
                (printElements indent level false (v' :: vs) ++ rest) n (by simp) hdepths.2
                (Nat.lt_of_succ_lt_succ hn) rfl
              have hcomma := skip_cons (show isSpace (byte ',') = false by decide)
                (printElements indent level false (v' :: vs) ++ rest)
              simp only [Option.map_some, Option.bind_some, printElements_true_cons,
                List.cons_append, hcomma, beq_self_eq_true, if_true, toOption_bind, hmore]
              cases rereadElements? (v' :: vs) <;> rfl

/-- The members are read one by one into those before them. -/
theorem members_print (indent : Int) : ∀ (ms : List (Text × Value α)) (level levels : Nat)
    (rest t : Text) (n : Nat) (done : List (Text × Value α)), ms ≠ [] → membersDepth ms ≤ levels →
      ms.length < n → skip t = skip (printMembers indent level false ms ++ rest) →
      (members (value levels) n done t).toOption = (rereadMembers? done ms).map (·, rest)
  | (key, v) :: ms, level, levels, rest, t, n + 1, done, _, hdepth, hn, hskip => by
      have hdepths := max_le_iff.mp hdepth
      obtain ⟨s, hcolon, hs⟩ := exists_colon_eq indent
      have hvalue : (value levels (s ++ (v.print indent (level + 1) ++
          (printMembers indent level true ms ++ rest)))).toOption =
          v.reread?.map (·, printMembers indent level true ms ++ rest) := by
        rw [← value_print indent v (level + 1) levels _ hdepths.1
          (delimited_printMembers indent level ms rest)]
        exact value_of_skip (skip_append hs _) levels
      have hkey := Literal.read_render key (colon indent ++ (v.print indent (level + 1) ++
        (printMembers indent level true ms ++ rest)))
      have hskipColon := skip_cons (show isSpace (byte ':') = false by decide)
        (s ++ (v.print indent (level + 1) ++ (printMembers indent level true ms ++ rest)))
      rw [hcolon, List.cons_append] at hkey
      rw [skip_printMembers, hcolon, List.cons_append] at hskip
      rw [members, hskip, hkey, rereadMembers?]
      rw [toOption_bind]
      change (Except.toOption _) = _
      simp only [hskipColon, bne_self_eq_false, Bool.false_eq_true, if_false, toOption_bind, hvalue]
      cases v.reread? with
      | none => rfl
      | some w =>
          cases ms with
          | nil =>
              have hbrace : isSpace 0x7D = false := by decide
              have hclose := skip_closing indent level hbrace rest
              simp only [Option.map_some, Option.bind_some, printMembers, hclose]
              rfl
          | cons m ms =>
              have hmore := members_print indent (m :: ms) level levels rest
                (printMembers indent level false (m :: ms) ++ rest) n (insert key w done)
                (by simp) hdepths.2 (Nat.lt_of_succ_lt_succ hn) rfl
              have hcomma := skip_cons (show isSpace (byte ',') = false by decide)
                (printMembers indent level false (m :: ms) ++ rest)
              simp only [Option.map_some, Option.bind_some, printMembers_true_cons,
                List.cons_append, hcomma, beq_self_eq_true, if_true, hmore]
              rfl

end

end Reader

variable {α : Type} [Quantity α]

theorem toOption_parse (t : Text) :
    (parse t : Except Text (Value α)).toOption = (Reader.document t).toOption := by
  rw [parse]
  cases (Reader.document t : Except Failure (Value α)) <;> rfl

/-- The text of a value that nests no deeper than allowed is read as `reread?` tells. -/
theorem toOption_parse_render {v : Value α} (h : v.depth ≤ Reader.maxDepth) (indent : Int) :
    (parse (v.render indent)).toOption = v.reread? := by
  obtain ⟨b, t, ht, -⟩ := Reader.exists_print_eq indent 0 v
  have hvalue := Reader.value_print indent v 0 (Reader.maxDepth + 1) [] (Nat.lt_succ_of_le h)
    (by simp [Reader.Delimited])
  rw [List.append_nil] at hvalue
  rw [Value.render_eq_print, toOption_parse, Reader.document, if_neg (by simp [ht]), toOption_bind,
    hvalue]
  cases v.reread? <;> rfl

theorem parse_render_eq_ok {v w : Value α} (h : v.depth ≤ Reader.maxDepth) {indent : Int} :
    parse (v.render indent) = .ok w ↔ v.reread? = some w := by
  rw [← toOption_parse_render h indent, toOption_eq_some]

end MusicPart.Json
