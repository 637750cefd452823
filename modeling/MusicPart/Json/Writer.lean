import MusicPart.Json.Literal
import MusicPart.Json.Value
import MusicPart.Numeral.SixPlaces

/-!
# Writing JSON

A text is laid out from events. The layout remembers whether a key waits for its value and, for
each open container from the innermost outwards, whether it holds anything yet. Every sequence of
events has a layout, also one that opens and closes out of turn.
-/

namespace MusicPart.Json

open Text

inductive Event where
  | beginObject
  | endObject
  | beginArray
  | endArray
  | key (name : Text)
  /-- A value without parts, as it is written. -/
  | scalar (text : Text)
  deriving Repr, DecidableEq

namespace Event

def string (s : Text) : Event := .scalar (Literal.render s)

def int (n : Int) : Event := .scalar (ofInt n)

def bool (b : Bool) : Event := .scalar (if b then "true" else "false")

def null : Event := .scalar "null"

def number {α : Type} [Quantity α] (x : α) : Event := .scalar (SixPlaces.render x)

end Event

structure Layout where
  afterKey : Bool := false
  filled : List Bool := []
  deriving Repr, DecidableEq

namespace Layout

/-- An indent of zero or less writes everything on one line. -/
def newline (indent : Int) (l : Layout) : Text :=
  if 0 < indent then 0x0A :: List.replicate (l.filled.length * indent.toNat) 0x20 else []

/-- What stands between the text so far and the next key or value. -/
def separator (indent : Int) (l : Layout) : Text :=
  if l.afterKey then []
  else
    match l.filled with
    | [] => []
    | nonempty :: _ => (if nonempty then [byte ','] else []) ++ newline indent l

def fill : List Bool → List Bool
  | [] => []
  | _ :: outer => true :: outer

def opened (l : Layout) : Layout := ⟨false, false :: l.filled⟩

def close (indent : Int) (bracket : UInt8) (l : Layout) : Layout × Text :=
  let inner := { l with filled := l.filled.tail }
  let lineBreak := if l.filled.headD false then newline indent inner else []
  ({ inner with filled := fill inner.filled }, lineBreak ++ [bracket])

def step (indent : Int) (l : Layout) : Event → Layout × Text
  | .beginObject => (l.opened, separator indent l ++ [0x7B])
  | .beginArray => (l.opened, separator indent l ++ [byte '['])
  | .endObject => close indent 0x7D l
  | .endArray => close indent (byte ']') l
  | .key name =>
      ({ l with afterKey := true },
        separator indent l ++ Literal.render name ++ (if 0 < indent then ": " else ":"))
  | .scalar text => (⟨false, fill l.filled⟩, separator indent l ++ text)

/-- The texts of the events in turn, and the layout after them. -/
def run (indent : Int) (l : Layout) (es : List Event) : Layout × List Text :=
  let (l, texts) := es.foldl
    (fun (s : Layout × List Text) e => let (l, t) := step indent s.1 e; (l, t :: s.2)) (l, [])
  (l, texts.reverse)

end Layout

def render (indent : Int) (es : List Event) : Text := (Layout.run indent {} es).2.flatten

namespace Value

variable {α : Type} [Quantity α]

mutual

def events : Value α → List Event
  | .null => [.null]
  | .bool b => [.bool b]
  | .number x => [.number x]
  | .string s => [.string s]
  | .array es => .beginArray :: (elementEvents es ++ [.endArray])
  | .object ms => .beginObject :: (memberEvents ms ++ [.endObject])

def elementEvents : List (Value α) → List Event
  | [] => []
  | v :: vs => events v ++ elementEvents vs

def memberEvents : List (Text × Value α) → List Event
  | [] => []
  | (key, v) :: ms => .key key :: (events v ++ memberEvents ms)

end

def render (indent : Int) (v : Value α) : Text := Json.render indent v.events

end Value

end MusicPart.Json
