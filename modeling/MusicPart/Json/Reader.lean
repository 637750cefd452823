import MusicPart.Json.Literal
import MusicPart.Json.Value

/-!
# Reading JSON

The reader takes one value that fills the text. It nests at most 64 deep below the root, lets any
blank of `Text.isSpace` stand between tokens, and takes any run of digits, points, signs and
exponent marks for a number if it is a finite numeral to its end. The first thing wrong is reported
with its offset in bytes. Of members with one key the first place and the last value count.
-/

namespace MusicPart.Json.Reader

open Text

variable {α : Type}

def maxDepth : Nat := 64

def skip (t : Text) : Text := t.dropWhile isSpace

def literal (word : Text) (v : Value α) (t : Text) : Except Failure (Value α × Text) :=
  if word.isPrefixOf t then .ok (v, t.drop word.length) else .error ⟨.invalidLiteral, t⟩

def isNumberByte (b : UInt8) : Bool :=
  isDigit b || b == byte '.' || b == byte 'e' || b == byte 'E' || b == byte '-' || b == byte '+'

def number [Quantity α] (t : Text) : Except Failure (Value α × Text) :=
  let (run, rest) := t.span isNumberByte
  match Numeral.finite? run with
  | some x => .ok (.number x, rest)
  | none => .error ⟨.invalidNumber, t⟩

/-- Elements up to the closing bracket. The first argument is the reader of one element; each takes
at least one byte, so a count one above the length of the text is never used up. -/
def elements (value : Text → Except Failure (Value α × Text)) :
    Nat → Text → Except Failure (List (Value α) × Text)
  | 0, t => .error ⟨.unterminatedArray, t⟩
  | n + 1, t => do
      let (v, t) ← value t
      match skip t with
      | [] => .error ⟨.unterminatedArray, []⟩
      | b :: rest =>
          if b == byte ',' then do
            let (vs, rest) ← elements value n rest
            return (v :: vs, rest)
          else if b == byte ']' then return ([v], rest)
          else .error ⟨.expectedElement, b :: rest⟩

/-- Members up to the closing brace, put into those read before them. -/
def members (value : Text → Except Failure (Value α × Text)) :
    Nat → List (Text × Value α) → Text → Except Failure (List (Text × Value α) × Text)
  | 0, _, t => .error ⟨.unterminatedObject, t⟩
  | n + 1, done, t => do
      let (key, t) ← Literal.read (skip t)
      match skip t with
      | [] => .error ⟨.expectedColon, []⟩
      | colon :: t =>
          if colon != byte ':' then .error ⟨.expectedColon, colon :: t⟩
          else
            let (v, t) ← value t
            let done := Value.insert key v done
            match skip t with
            | [] => .error ⟨.unterminatedObject, []⟩
            | b :: rest =>
                if b == byte ',' then members value n done rest
                else if b == 0x7D then return (done, rest)
                else .error ⟨.expectedMember, b :: rest⟩

def array (value : Text → Except Failure (Value α × Text)) (t : Text) :
    Except Failure (Value α × Text) := do
  match skip t with
  | b :: rest =>
      if b == byte ']' then return (.array [], rest)
      else
        let (vs, rest) ← elements value (t.length + 1) (b :: rest)
        return (.array vs, rest)
  | [] =>
      let (vs, rest) ← elements value (t.length + 1) []
      return (.array vs, rest)

def object (value : Text → Except Failure (Value α × Text)) (t : Text) :
    Except Failure (Value α × Text) := do
  match skip t with
  | b :: rest =>
      if b == 0x7D then return (.object [], rest)
      else
        let (ms, rest) ← members value (t.length + 1) [] (b :: rest)
        return (.object ms, rest)
  | [] =>
      let (ms, rest) ← members value (t.length + 1) [] []
      return (.object ms, rest)

variable [Quantity α]

/-- One value, with so many levels of nesting allowed. -/
def value : Nat → Text → Except Failure (Value α × Text)
  | 0, t => .error ⟨.tooDeep, t⟩
  | levels + 1, t =>
      match skip t with
      | [] => .error ⟨.endOfInput, []⟩
      | b :: rest =>
          if b == 0x7B then object (value levels) rest
          else if b == byte '[' then array (value levels) rest
          else if b == Literal.quote then do
            let (s, rest) ← Literal.read (b :: rest)
            return (.string s, rest)
          else if b == byte 't' then literal "true" (.bool true) (b :: rest)
          else if b == byte 'f' then literal "false" (.bool false) (b :: rest)
          else if b == byte 'n' then literal "null" .null (b :: rest)
          else number (b :: rest)

def document (t : Text) : Except Failure (Value α) :=
  if t.isEmpty then .error ⟨.emptyInput, []⟩
  else do
    let (v, rest) ← value (maxDepth + 1) t
    match skip rest with
    | [] => return v
    | rest => .error ⟨.trailing, rest⟩

end Reader

/-! ### Messages -/

def Problem.wording : Problem → Text
  | .emptyInput => "empty input"
  | .endOfInput => "unexpected end of input"
  | .tooDeep => "nesting too deep"
  | .invalidLiteral => "invalid literal"
  | .invalidNumber => "invalid number"
  | .expectedString => "expected string"
  | .unterminatedString => "unterminated string"
  | .truncatedEscape => "truncated escape"
  | .invalidEscape => "invalid escape"
  | .truncatedUnit => "truncated unicode escape"
  | .invalidUnit => "invalid unicode escape"
  | .expectedColon => "expected ':'"
  | .unterminatedArray => "unterminated array"
  | .unterminatedObject => "unterminated object"
  | .expectedElement => "expected ',' or ']'"
  | .expectedMember => "expected ',' or '\x7d'"
  | .trailing => "trailing characters"

def Failure.offset (input : Text) (f : Failure) : Nat := input.length - f.rest.length

def Failure.message (input : Text) (f : Failure) : Text :=
  match f.problem with
  | .emptyInput => f.problem.wording
  | problem => problem.wording ++ " at offset " ++ Text.ofNat (f.offset input)

variable {α : Type} [Quantity α]

/-- Reads a document, or says what is wrong with it. -/
def parse (t : Text) : Except Text (Value α) :=
  match Reader.document t with
  | .ok v => .ok v
  | .error f => .error (f.message t)

end MusicPart.Json
