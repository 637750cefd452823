import MusicPart.Text.Utf8

/-!
# String literals

A string literal is a sequence of pieces between quotes: plain bytes, two-character escapes and
escapes of a UTF-16 unit. Reading stops at the first piece that is not well formed and reports what
is wrong and what was left to read. Writing escapes the quote, the backslash and control bytes.
-/

namespace MusicPart.Json

open Text

inductive Problem where
  | emptyInput
  | endOfInput
  | tooDeep
  | invalidLiteral
  | invalidNumber
  | expectedString
  | unterminatedString
  | truncatedEscape
  | invalidEscape
  | truncatedUnit
  | invalidUnit
  | expectedColon
  | unterminatedArray
  | unterminatedObject
  | expectedElement
  | expectedMember
  | trailing
  deriving Repr, DecidableEq

structure Failure where
  problem : Problem
  rest : Text
  deriving Repr, DecidableEq

namespace Literal

def quote : UInt8 := 0x22

def backslash : UInt8 := 0x5C

/-- A piece keeps the bytes that it is written with. -/
inductive Piece where
  | plain (b : UInt8)
  | short (letter : UInt8)
  | unit (a b c d : UInt8)
  deriving Repr, DecidableEq

def written : Piece → Text
  | .plain b => [b]
  | .short letter => [backslash, letter]
  | .unit a b c d => [backslash, byte 'u', a, b, c, d]

/-- The letters of two-character escapes with the bytes they stand for. -/
def shorts : List (UInt8 × UInt8) :=
  [(quote, quote), (backslash, backslash), (byte '/', byte '/'), (byte 'b', 0x08),
    (byte 'f', 0x0C), (byte 'n', 0x0A), (byte 'r', 0x0D), (byte 't', 0x09)]

def short? (letter : UInt8) : Option UInt8 := (shorts.find? (·.1 == letter)).map (·.2)

def isHex (b : UInt8) : Bool := (hexValue? b).isSome

def code (a b c d : UInt8) : Nat :=
  [a, b, c, d].foldl (fun n x => 16 * n + (hexValue? x).getD 0) 0

def isHigh (u : Nat) : Bool := 0xD800 ≤ u && u ≤ 0xDBFF

def isLow (u : Nat) : Bool := 0xDC00 ≤ u && u ≤ 0xDFFF

/-! ### Reading -/

/-- The pieces up to the closing quote, and what follows it. -/
def pieces : Text → Except Failure (List Piece × Text)
  | [] => .error ⟨.unterminatedString, []⟩
  | b :: t =>
      if b == quote then .ok ([], t)
      else if b != backslash then do
        let (ps, rest) ← pieces t
        return (.plain b :: ps, rest)
      else
        match t with
        | [] => .error ⟨.truncatedEscape, []⟩
        | letter :: t =>
            if letter == byte 'u' then
              match t with
              | d₁ :: d₂ :: d₃ :: d₄ :: t =>
                  if !isHex d₁ then .error ⟨.invalidUnit, d₂ :: d₃ :: d₄ :: t⟩
                  else if !isHex d₂ then .error ⟨.invalidUnit, d₃ :: d₄ :: t⟩
                  else if !isHex d₃ then .error ⟨.invalidUnit, d₄ :: t⟩
                  else if !isHex d₄ then .error ⟨.invalidUnit, t⟩
                  else do
                    let (ps, rest) ← pieces t
                    return (.unit d₁ d₂ d₃ d₄ :: ps, rest)
              | t => .error ⟨.truncatedUnit, t⟩
            else if (short? letter).isNone then .error ⟨.invalidEscape, t⟩
            else do
              let (ps, rest) ← pieces t
              return (.short letter :: ps, rest)

/-- A high surrogate takes the unit after it along, whether or not the two make a pair. -/
def decode : List Piece → Text
  | [] => []
  | .plain b :: ps => b :: decode ps
  | .short letter :: ps => (short? letter).toList ++ decode ps
  | .unit a b c d :: .unit a' b' c' d' :: ps =>
      let high := code a b c d
      let low := code a' b' c' d'
      if !isHigh high then Utf8.encode high ++ decode (.unit a' b' c' d' :: ps)
      else if isLow low then
        Utf8.encode (0x10000 + 0x400 * (high - 0xD800) + (low - 0xDC00)) ++ decode ps
      else Utf8.encode high ++ decode ps
  | .unit a b c d :: ps => Utf8.encode (code a b c d) ++ decode ps

def read : Text → Except Failure (Text × Text)
  | [] => .error ⟨.expectedString, []⟩
  | b :: t =>
      if b == quote then do
        let (ps, rest) ← pieces t
        return (decode ps, rest)
      else .error ⟨.expectedString, b :: t⟩

/-! ### Writing -/

def hexDigit (n : Nat) : UInt8 :=
  if n < 10 then byte '0' + n.toUInt8 else byte 'a' + (n - 10).toUInt8

def escapeByte (b : UInt8) : Text :=
  if b == quote then [backslash, quote]
  else if b == backslash then [backslash, backslash]
  else if b == 0x08 then [backslash, byte 'b']
  else if b == 0x0C then [backslash, byte 'f']
  else if b == 0x0A then [backslash, byte 'n']
  else if b == 0x0D then [backslash, byte 'r']
  else if b == 0x09 then [backslash, byte 't']
  else if b < 0x20 then
    [backslash, byte 'u', byte '0', byte '0', hexDigit (b.toNat / 16), hexDigit (b.toNat % 16)]
  else [b]

def escape (t : Text) : Text := t.flatMap escapeByte

def render (t : Text) : Text := quote :: (escape t ++ [quote])

end Literal

end MusicPart.Json
