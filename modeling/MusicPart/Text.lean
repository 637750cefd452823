/-!
# Texts

A text is a string of bytes. Nothing requires it to be UTF-8 or free of NUL, so letters, blanks
and digits are the ASCII ones and every other byte is left alone.
-/

namespace MusicPart

abbrev Text := List UInt8

namespace Text

def ofString (s : String) : Text := s.toUTF8.data.toList

instance : Coe String Text := ⟨ofString⟩

def byte (c : Char) : UInt8 := c.toUInt8

/-! ### Classes of bytes -/

def isDigit (b : UInt8) : Bool := 0x30 ≤ b && b ≤ 0x39

def isUpper (b : UInt8) : Bool := 0x41 ≤ b && b ≤ 0x5A

def isLower (b : UInt8) : Bool := 0x61 ≤ b && b ≤ 0x7A

def isAlnum (b : UInt8) : Bool := isDigit b || isUpper b || isLower b

/-- Space, tab, line feed, vertical tab, form feed and carriage return. -/
def isSpace (b : UInt8) : Bool := b == 0x20 || (0x09 ≤ b && b ≤ 0x0D)

/-- The blanks that may stand around a name on one line. -/
def isBlank (b : UInt8) : Bool := b == 0x20 || b == 0x09

def lowerByte (b : UInt8) : UInt8 := if isUpper b then b + 0x20 else b

def lower (t : Text) : Text := t.map lowerByte

def digitValue (b : UInt8) : Nat := b.toNat - 0x30

def hexValue? (b : UInt8) : Option Nat :=
  if isDigit b then some (b.toNat - 0x30)
  else if 0x61 ≤ b && b ≤ 0x66 then some (b.toNat - 0x61 + 10)
  else if 0x41 ≤ b && b ≤ 0x46 then some (b.toNat - 0x41 + 10)
  else none

/-! ### Cutting -/

def dropEndWhile (p : UInt8 → Bool) (t : Text) : Text := (t.reverse.dropWhile p).reverse

def strip (p : UInt8 → Bool) (t : Text) : Text := dropEndWhile p (t.dropWhile p)

def trim (t : Text) : Text := strip isSpace t

/-- The part before the first NUL, which is all that a zero-terminated reader sees. -/
def beforeNul (t : Text) : Text := t.takeWhile (· != 0)

/-- The pieces between separators, empty ones included. -/
def splitOn (sep : UInt8) : Text → List Text
  | [] => [[]]
  | b :: t =>
      match splitOn sep t with
      | [] => [[b]]
      | piece :: rest => if b == sep then [] :: piece :: rest else (b :: piece) :: rest

/-- The parts before and after the first separator. -/
def cutAt? (sep : UInt8) (t : Text) : Option (Text × Text) :=
  match t.span (· != sep) with
  | (before, _ :: after) => some (before, after)
  | (_, []) => none

/-- The parts before and after the last separator. -/
def cutAtLast? (sep : UInt8) (t : Text) : Option (Text × Text) :=
  (cutAt? sep t.reverse).map (fun p => (p.2.reverse, p.1.reverse))

def occursIn (part : Text) : Text → Bool
  | [] => part.isEmpty
  | b :: t => part.isPrefixOf (b :: t) || occursIn part t

/-- Precedence in the order of bytes. -/
def before (s t : Text) : Bool := s < t

/-! ### Numbers -/

def digitsValue (t : Text) : Nat := t.foldl (fun n b => 10 * n + digitValue b) 0

def ofNat (n : Nat) : Text := (Nat.toDigits 10 n).map byte

def ofInt : Int → Text
  | .ofNat n => ofNat n
  | .negSucc n => 0x2D :: ofNat (n + 1)

end Text

end MusicPart
