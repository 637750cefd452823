import MusicPart.Text
import MusicPart.Quantity

/-!
# Numerals

A numeral is the longest start of a text that reads as a number: blanks, a sign, and then decimal
digits with an optional fraction and exponent, hexadecimal digits with an optional fraction and
binary exponent, or the word for infinity or for no number. A text is a number when it is one
numeral to its end.
-/

namespace MusicPart

inductive Numeral where
  | decimal (negative : Bool) (digits : Nat) (exponent : Int)
  | binary (negative : Bool) (digits : Nat) (exponent : Int)
  | infinity (negative : Bool)
  | nan (negative : Bool)
  deriving Repr, DecidableEq

namespace Numeral

open Text

/-! ### Reading -/

def sign : Text → Bool × Text
  | b :: t =>
      if b == byte '-' then (true, t) else if b == byte '+' then (false, t) else (false, b :: t)
  | [] => (false, [])

/-- Digits, and the digits after a point if there is one. -/
def places (digit : UInt8 → Bool) (t : Text) : Text × Text × Text :=
  match t.span digit with
  | (whole, b :: rest) =>
      if b == byte '.' then let (fraction, rest) := rest.span digit; (whole, fraction, rest)
      else (whole, [], b :: rest)
  | (whole, []) => (whole, [], [])

/-- An exponent after its mark. A mark that no digit follows belongs to what comes after. -/
def scale (mark : UInt8) (t : Text) : Int × Text :=
  match t with
  | [] => (0, [])
  | b :: rest =>
      if lowerByte b == mark then
        let (negative, rest) := sign rest
        match rest.span isDigit with
        | ([], _) => (0, t)
        | (digits, rest) =>
            (if negative then -(digitsValue digits : Int) else digitsValue digits, rest)
      else (0, t)

def decimal? (negative : Bool) (t : Text) : Option (Numeral × Text) :=
  let (whole, fraction, rest) := places isDigit t
  if whole.isEmpty && fraction.isEmpty then none
  else
    let (e, rest) := scale (byte 'e') rest
    some (.decimal negative (digitsValue (whole ++ fraction)) (e - fraction.length), rest)

def hexDigitsValue (t : Text) : Nat := t.foldl (fun n b => 16 * n + (hexValue? b).getD 0) 0

def hexadecimal? (negative : Bool) : Text → Option (Numeral × Text)
  | zero :: mark :: t =>
      if zero == byte '0' && lowerByte mark == byte 'x' then
        let (whole, fraction, rest) := places (fun b => (hexValue? b).isSome) t
        if whole.isEmpty && fraction.isEmpty then none
        else
          let (e, rest) := scale (byte 'p') rest
          let digits := hexDigitsValue (whole ++ fraction)
          some (.binary negative digits (e - 4 * fraction.length), rest)
      else none
  | _ => none

/-- What follows a word, letter case aside. -/
def afterWord? (word t : Text) : Option Text :=
  if word.isPrefixOf (lower t) then some (t.drop word.length) else none

def infinity? (negative : Bool) (t : Text) : Option (Numeral × Text) :=
  match afterWord? "infinity" t, afterWord? "inf" t with
  | some rest, _ => some (.infinity negative, rest)
  | none, some rest => some (.infinity negative, rest)
  | none, none => none

/-- A bracketed tag after the word is part of it. -/
def nan? (negative : Bool) (t : Text) : Option (Numeral × Text) :=
  (afterWord? "nan" t).map fun rest =>
    match rest with
    | b :: tagged =>
        match tagged.span (fun c => isAlnum c || c == byte '_') with
        | (_, c :: after) =>
            (.nan negative, if b == byte '(' && c == byte ')' then after else rest)
        | (_, []) => (.nan negative, rest)
    | [] => (.nan negative, rest)

def read? (t : Text) : Option (Numeral × Text) :=
  let (negative, t) := sign (t.dropWhile isSpace)
  hexadecimal? negative t <|> decimal? negative t <|> infinity? negative t <|>
    nan? negative t

/-! ### Values -/

variable {α : Type} [Quantity α]

def signed (negative : Bool) (x : α) : α := if negative then -x else x

def value? : Numeral → Option α
  | .decimal negative m e => some (signed negative (OfScientific.ofScientific m (e < 0) e.natAbs))
  | .binary negative m e => some (signed negative (Quantity.ofBinary m e))
  | .infinity negative => Quantity.infinity?.map (signed negative)
  | .nan _ => Quantity.nan?

/-- The value of the numeral that a text starts with, and the rest of the text. -/
def start? (t : Text) : Option (α × Text) := do
  let (n, rest) ← read? t
  return (← value? n, rest)

/-- The value of a text that is one numeral, finite or not. -/
def whole? (t : Text) : Option α :=
  match start? t with
  | some (x, []) => some x
  | _ => none

/-- The value of a text that is one numeral with a finite value. -/
def finite? (t : Text) : Option α := (whole? t).filter Quantity.isFinite

/-! ### Whole numbers -/

/-- A whole number in decimal digits, after blanks and a sign. -/
def integer? (t : Text) : Option (Int × Text) :=
  let (negative, t) := sign (t.dropWhile isSpace)
  match t.span isDigit with
  | ([], _) => none
  | (digits, rest) =>
      some (if negative then -(digitsValue digits : Int) else digitsValue digits, rest)

end Numeral

end MusicPart
