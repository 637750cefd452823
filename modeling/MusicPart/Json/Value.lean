import MusicPart.Numeral

/-!
# JSON values

Members of an object keep their order. A key is looked up by its first member, and setting a key
replaces that member or adds one at the end, so a value built by `set` alone has distinct keys.
-/

namespace MusicPart.Json

inductive Value (α : Type) where
  | null
  | bool (b : Bool)
  | number (x : α)
  | string (s : Text)
  | array (elements : List (Value α))
  | object (members : List (Text × Value α))
  deriving Inhabited

namespace Value

variable {α : Type}

def isNull : Value α → Bool
  | null => true
  | _ => false

def isObject : Value α → Bool
  | object _ => true
  | _ => false

def elements : Value α → List (Value α)
  | array es => es
  | _ => []

def members : Value α → List (Text × Value α)
  | object ms => ms
  | _ => []

/-! ### Members -/

def lookup (key : Text) (ms : List (Text × Value α)) : Option (Value α) :=
  (ms.find? (·.1 == key)).map (·.2)

def insert (key : Text) (v : Value α) : List (Text × Value α) → List (Text × Value α)
  | [] => [(key, v)]
  | m :: ms => if m.1 == key then (m.1, v) :: ms else m :: insert key v ms

def find? (key : Text) (v : Value α) : Option (Value α) := lookup key v.members

def has (key : Text) (v : Value α) : Bool := (v.find? key).isSome

/-- A member that is present and not null. -/
def present? (key : Text) (v : Value α) : Option (Value α) := (v.find? key).filter (!·.isNull)

/-- The first of several members that is present and not null. -/
def first? (keys : List Text) (v : Value α) : Option (Value α) := keys.findSome? (v.present? ·)

/-- Null becomes an object; any other value that is not one stays as it is. -/
def set (v : Value α) (key : Text) (new : Value α) : Value α :=
  match v with
  | null => object [(key, new)]
  | object ms => object (insert key new ms)
  | v => v

/-! ### Readings -/

def boolOr (default : Bool) : Value α → Bool
  | bool b => b
  | _ => default

def text? : Value α → Option Text
  | string s => some s
  | _ => none

def textOr (default : Text) (v : Value α) : Text := v.text?.getD default

variable [Quantity α]

def ofInt (n : Int) : Value α := number (Quantity.ofInt n)

/-- Whole numbers read from a document stay within a million of zero. -/
def saturate (x : α) : Int := Quantity.toInt (Quantity.clamp x (-1e6) 1e6)

def intOr (default : Int) : Value α → Int
  | number x => saturate x
  | _ => default

def numberOr (default : α) : Value α → α
  | number x => x
  | _ => default

/-- A number, or a text that is a finite numeral between blanks. -/
def numeric? : Value α → Option α
  | number x => some x
  | string s => Numeral.finite? (Text.trim s)
  | _ => none

def truthy : Value α → Bool
  | null => false
  | bool b => b
  | number x => !(x == 0.0)
  | string s => !s.isEmpty
  | array es => !es.isEmpty
  | object ms => !ms.isEmpty

end Value

end MusicPart.Json
