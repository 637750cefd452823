import Mathlib
import MusicPart.Json.Literal
import MusicPart.Json.Value
import MusicPart.Proofs.Numerals

/-!
# The grammar of documents

A document of the JSON grammar is a tree of its parts: blanks at every place where they may stand,
numbers with their digits, strings with their escapes. A tree has a text, and without any reading
of that text it has a nesting depth and a value. Members with one key make one member, which stands
in the place of the first and has the value of the last.
-/

namespace MusicPart.Json.Grammar

open Text Literal

/-! ### Tokens -/

/-- Spaces, tabs, line feeds and carriage returns. -/
structure Gap where
  text : Text
  blank : text ⊆ [0x20, 0x09, 0x0A, 0x0D]

structure Exponent where
  capital : Bool
  /-- Whether the sign is a minus, if there is a sign. -/
  sign : Option Bool
  digits : Text
  digits_ne_nil : digits ≠ []
  isDigit_digits : ∀ b ∈ digits, isDigit b = true

/-- Digits without a zero before them, the digits of a fraction if it is not empty, and an
exponent. -/
structure Number extends Numeral.Decimal where
  no_leading_zero : whole.head? = some (byte '0') → whole = [byte '0']
  exponent : Option Exponent

/-- A plain byte is neither a quote nor a backslash nor a control byte. -/
inductive Allowed : Piece → Prop
  | plain {b : UInt8} (hcontrol : 0x20 ≤ b) (hquote : b ≠ quote) (hbackslash : b ≠ backslash) :
      Allowed (.plain b)
  | short {letter b : UInt8} (h : (letter, b) ∈ shorts) : Allowed (.short letter)
  | unit {a b c d : UInt8} (h : [a, b, c, d].all isHex = true) : Allowed (.unit a b c d)

structure Str where
  pieces : List Piece
  allowed : ∀ p ∈ pieces, Allowed p

/-- The text that pieces spell if each escape, or each pair of escapes, is that of a character. -/
inductive Spells : List Piece → Text → Prop
  | nil : Spells [] []
  | plain {b : UInt8} {ps : List Piece} {t : Text} (h : Spells ps t) :
      Spells (.plain b :: ps) (b :: t)
  | short {letter b : UInt8} {ps : List Piece} {t : Text} (hb : (letter, b) ∈ shorts)
      (h : Spells ps t) : Spells (.short letter :: ps) (b :: t)
  | unit {a b c d : UInt8} {x : Char} {ps : List Piece} {t : Text} (hx : code a b c d = x.toNat)
      (h : Spells ps t) : Spells (.unit a b c d :: ps) (String.utf8EncodeChar x ++ t)
  | pair {a b c d a' b' c' d' : UInt8} {x : Char} {ps : List Piece} {t : Text}
      (hhigh : isHigh (code a b c d) = true) (hlow : isLow (code a' b' c' d') = true)
      (hx : 0x10000 + 0x400 * (code a b c d - 0xD800) + (code a' b' c' d' - 0xDC00) = x.toNat)
      (h : Spells ps t) :
      Spells (.unit a b c d :: .unit a' b' c' d' :: ps) (String.utf8EncodeChar x ++ t)

/-! ### Trees -/

mutual

/-- A value. The blanks before and after it belong to what it stands in. -/
inductive Tree where
  | null
  | bool (b : Bool)
  | number (n : Number)
  | string (s : Str)
  | emptyArray (gap : Gap)
  | array (before : Gap) (first : Tree) (after : Gap) (others : Elements)
  | emptyObject (gap : Gap)
  | object (before : Gap) (key : Str) (left right : Gap) (first : Tree) (after : Gap)
      (others : Members)

/-- The elements after the first, each behind a comma. -/
inductive Elements where
  | nil
  | cons (before : Gap) (v : Tree) (after : Gap) (others : Elements)

/-- The members after the first, each behind a comma. -/
inductive Members where
  | nil
  | cons (before : Gap) (key : Str) (left right : Gap) (v : Tree) (after : Gap) (others : Members)

end

structure Document where
  before : Gap
  root : Tree
  after : Gap

/-! ### Texts -/

def Exponent.signText (e : Exponent) : Text :=
  match e.sign with
  | none => []
  | some negative => [if negative then byte '-' else byte '+']

def Exponent.text (e : Exponent) : Text :=
  (if e.capital then byte 'E' else byte 'e') :: (e.signText ++ e.digits)

def Number.scaleText (n : Number) : Text := (n.exponent.map Exponent.text).getD []

def Number.text (n : Number) : Text := n.toDecimal.text ++ n.scaleText

def Str.text (s : Str) : Text := quote :: (s.pieces.flatMap written ++ [quote])

mutual

def Tree.text : Tree → Text
  | .null => "null"
  | .bool b => if b then "true" else "false"
  | .number n => n.text
  | .string s => s.text
  | .emptyArray gap => byte '[' :: (gap.text ++ [byte ']'])
  | .array before first after others =>
      byte '[' :: (before.text ++ first.text ++ after.text ++ others.text ++ [byte ']'])
  | .emptyObject gap => 0x7B :: (gap.text ++ [0x7D])
  | .object before key left right first after others =>
      0x7B :: (before.text ++ key.text ++ left.text ++ byte ':' :: (right.text ++ first.text ++
        after.text ++ others.text ++ [0x7D]))

def Elements.text : Elements → Text
  | .nil => []
  | .cons before v after others =>
      byte ',' :: (before.text ++ v.text ++ after.text ++ others.text)

def Members.text : Members → Text
  | .nil => []
  | .cons before key left right v after others =>
      byte ',' :: (before.text ++ key.text ++ left.text ++ byte ':' :: (right.text ++ v.text ++
        after.text ++ others.text))

end

def Document.text (d : Document) : Text := d.before.text ++ d.root.text ++ d.after.text

/-! ### What is inside a tree -/

mutual

/-- The number of containers around the innermost value. -/
def Tree.depth : Tree → Nat
  | .array _ first _ others => max (first.depth + 1) others.depth
  | .object _ _ _ _ first _ others => max (first.depth + 1) others.depth
  | _ => 0

def Elements.depth : Elements → Nat
  | .nil => 0
  | .cons _ v _ others => max (v.depth + 1) others.depth

def Members.depth : Members → Nat
  | .nil => 0
  | .cons _ _ _ _ v _ others => max (v.depth + 1) others.depth

end

mutual

def Tree.numbers : Tree → List Number
  | .number n => [n]
  | .array _ first _ others => first.numbers ++ others.numbers
  | .object _ _ _ _ first _ others => first.numbers ++ others.numbers
  | _ => []

def Elements.numbers : Elements → List Number
  | .nil => []
  | .cons _ v _ others => v.numbers ++ others.numbers

def Members.numbers : Members → List Number
  | .nil => []
  | .cons _ _ _ _ v _ others => v.numbers ++ others.numbers

end

mutual

/-- The strings in a tree, keys included. -/
def Tree.strings : Tree → List Str
  | .string s => [s]
  | .array _ first _ others => first.strings ++ others.strings
  | .object _ key _ _ first _ others => key :: (first.strings ++ others.strings)
  | _ => []

def Elements.strings : Elements → List Str
  | .nil => []
  | .cons _ v _ others => v.strings ++ others.strings

def Members.strings : Members → List Str
  | .nil => []
  | .cons _ key _ _ v _ others => key :: (v.strings ++ others.strings)

end

/-! ### Members with one key -/

variable {α : Type}

/-- One member for each key: the keys in the order of their first members, the values from their
last. -/
def merge (ms : List (Text × Value α)) : List (Text × Value α) :=
  (ms.map (·.1)).eraseDups.map fun key => (key, (Value.lookup key ms.reverse).getD .null)

theorem eraseDups_concat (keys : List Text) (key : Text) : (keys ++ [key]).eraseDups =
    if key ∈ keys then keys.eraseDups else keys.eraseDups ++ [key] := by
  rw [List.eraseDups_append]
  split_ifs with h
  · simp [List.removeAll, h]
  · simp [List.removeAll, h, List.eraseDups_cons]

theorem nodup_eraseDups (keys : List Text) : keys.eraseDups.Nodup := by
  induction keys using List.reverseRecOn with
  | nil => exact List.nodup_nil
  | append_singleton keys key ih =>
      rw [eraseDups_concat]
      split_ifs with h
      · exact ih
      · refine List.nodup_append.mpr ⟨ih, List.nodup_singleton key, fun k hk k' hk' => ?_⟩
        rw [List.mem_singleton.mp hk']
        exact ne_of_mem_of_not_mem (List.mem_eraseDups.mp hk) h

/-- Inserting into members whose values are given by their keys. -/
theorem insert_map {keys : List Text} (h : keys.Nodup) (f : Text → Value α) (key : Text)
    (v : Value α) : Value.insert key v (keys.map fun k => (k, f k)) =
      (if key ∈ keys then keys else keys ++ [key]).map fun k => (k, Function.update f key v k) := by
  induction keys with
  | nil => simp [Value.insert]
  | cons k keys ih =>
      obtain ⟨hnot, hnodup⟩ := List.nodup_cons.mp h
      rw [List.map_cons, Value.insert]
      by_cases hk : k = key
      · subst hk
        have hkept : ∀ k' ∈ keys, (k', Function.update f k v k') = (k', f k') := by
          intro k' hk'
          rw [Function.update_of_ne (ne_of_mem_of_not_mem hk' hnot)]
        simp [List.map_congr_left hkept]
      · have hmem : key ∈ k :: keys ↔ key ∈ keys := by simp [Ne.symm hk]
        simp only [beq_eq_false_iff_ne.mpr hk, Bool.false_eq_true, if_false, ih hnodup, hmem]
        split_ifs <;> simp [hk]

/-- Inserting members one by one merges them. -/
theorem foldl_insert (ms : List (Text × Value α)) :
    ms.foldl (fun done m => Value.insert m.1 m.2 done) [] = merge ms := by
  induction ms using List.reverseRecOn with
  | nil => rfl
  | append_singleton ms m ih =>
      have hlast (k : Text) : (Value.lookup k (ms ++ [m]).reverse).getD .null =
          Function.update (fun k => (Value.lookup k ms.reverse).getD .null) m.1 m.2 k := by
        rw [List.reverse_concat, Value.lookup, List.find?_cons]
        by_cases hk : m.1 = k
        · simp [hk]
        · rw [beq_eq_false_iff_ne.mpr hk, Function.update_of_ne (Ne.symm hk)]
          rfl
      rw [List.foldl_append, ih, List.foldl_cons, List.foldl_nil, merge,
        insert_map (nodup_eraseDups _), merge, List.map_append, List.map_singleton,
        eraseDups_concat]
      simp only [List.mem_eraseDups, hlast]

/-! ### Values -/

def Exponent.value (e : Exponent) : Int :=
  if e.sign = some true then -(digitsValue e.digits : Int) else digitsValue e.digits

/-- The power of ten that the digits of whole and fraction together are multiplied by. -/
def Number.scale (n : Number) : Int := (n.exponent.map Exponent.value).getD 0 - n.fraction.length

variable [Quantity α]

def Number.value (n : Number) : α :=
  Numeral.signed n.negative (OfScientific.ofScientific (digitsValue (n.whole ++ n.fraction))
    (n.scale < 0) n.scale.natAbs)

mutual

def Tree.value : Tree → Value α
  | .null => .null
  | .bool b => .bool b
  | .number n => .number n.value
  | .string s => .string (decode s.pieces)
  | .emptyArray _ => .array []
  | .array _ first _ others => .array (first.value :: others.values)
  | .emptyObject _ => .object []
  | .object _ key _ _ first _ others =>
      .object (merge ((decode key.pieces, first.value) :: others.pairs))

def Elements.values : Elements → List (Value α)
  | .nil => []
  | .cons _ v _ others => v.value :: others.values

def Members.pairs : Members → List (Text × Value α)
  | .nil => []
  | .cons _ key _ _ v _ others => (decode key.pieces, v.value) :: others.pairs

end

end MusicPart.Json.Grammar
