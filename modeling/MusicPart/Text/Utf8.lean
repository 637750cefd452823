import MusicPart.Text

/-!
# UTF-8

`encode` follows the UTF-8 scheme for any code below 2²¹, surrogates included. `isValid` accepts
the shortest forms of Unicode scalar values only.
-/

namespace MusicPart.Text.Utf8

def tail (code shift : Nat) : UInt8 := (0x80 + (code >>> shift) % 64).toUInt8

def encode (code : Nat) : Text :=
  if code < 0x80 then [code.toUInt8]
  else if code < 0x800 then [(0xC0 + code >>> 6).toUInt8, tail code 0]
  else if code < 0x10000 then [(0xE0 + code >>> 12).toUInt8, tail code 6, tail code 0]
  else [(0xF0 + code >>> 18).toUInt8, tail code 12, tail code 6, tail code 0]

def isTail (b : UInt8) : Bool := 0x80 ≤ b && b ≤ 0xBF

/-- The bytes that may follow a lead byte: their number, and the range of the first of them. -/
def following? (lead : UInt8) : Option (Nat × UInt8 × UInt8) :=
  if lead < 0x80 then some (0, 0, 0)
  else if lead < 0xC2 then none
  else if lead < 0xE0 then some (1, 0x80, 0xBF)
  else if lead == 0xE0 then some (2, 0xA0, 0xBF)
  else if lead == 0xED then some (2, 0x80, 0x9F)
  else if lead < 0xF0 then some (2, 0x80, 0xBF)
  else if lead == 0xF0 then some (3, 0x90, 0xBF)
  else if lead < 0xF4 then some (3, 0x80, 0xBF)
  else if lead == 0xF4 then some (3, 0x80, 0x8F)
  else none

/-- Reads a text with `pending` tail bytes still owed, the next of them within the given range. -/
def accepts : Nat → UInt8 → UInt8 → Text → Bool
  | 0, _, _, [] => true
  | _ + 1, _, _, [] => false
  | 0, _, _, b :: t =>
      match following? b with
      | some (n, low, high) => accepts n low high t
      | none => false
  | n + 1, low, high, b :: t => low ≤ b && b ≤ high && accepts n 0x80 0xBF t

def isValid (t : Text) : Bool := accepts 0 0 0 t

end MusicPart.Text.Utf8
