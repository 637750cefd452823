import MusicPart.Meter
import MusicPart.Json.Value

/-!
# Curves

A curve runs through breakpoints, at each time a value. Between two of them it holds the first
value, goes straight, or follows the cubic spline that the neighbours on both sides determine;
before the first and after the last it stays level. Reading takes points as they come; `clean`
brings them into a selection, in order of time, the last one of each time.
-/

namespace MusicPart

inductive Interpolation where
  | hold
  | linear
  | cubic
  deriving Repr, DecidableEq, Inhabited

namespace Interpolation

def name : Interpolation → Text
  | hold => "hold"
  | linear => "linear"
  | cubic => "cubic"

def names : List (Text × Interpolation) :=
  [("hold", hold), ("step", hold), ("linear", linear), ("cubic", cubic), ("smooth", cubic)]

def ofNameOr (default : Interpolation) (t : Text) : Interpolation :=
  ((names.find? (·.1 == Text.lower t)).map (·.2)).getD default

end Interpolation

structure Point (α : Type) where
  time : α
  value : α

structure Curve (α : Type) where
  name : Text
  interpolation : Interpolation
  /-- Whether the document named the interpolation. -/
  explicit : Bool
  points : List (Point α)

namespace Curve

variable {α : Type} [Quantity α]

/-! ### Values -/

/-- The spline between the two middle values, with `u` going from 0 to 1. -/
def spline (p₀ p₁ p₂ p₃ u : α) : α :=
  let u₂ := u * u
  let u₃ := u₂ * u
  0.5 * ((2.0 * p₁) + (-p₀ + p₂) * u + (2.0 * p₀ - 5.0 * p₁ + 4.0 * p₂ - p₃) * u₂
    + (-p₀ + 3.0 * p₁ - 3.0 * p₂ + p₃) * u₃)

/-- The value between two points, given the values beyond them. -/
def between (i : Interpolation) (before : α) (p q : Point α) (after : α) (t : α) : α :=
  let u := (t - p.time) / (q.time - p.time)
  match i with
  | .hold => p.value
  | .linear => if q.time ≤ p.time then q.value else p.value + (q.value - p.value) * u
  | .cubic => if q.time ≤ p.time then q.value else spline before p.value q.value after u

/-- The value from a point onwards, given the value before it. -/
def valueFrom (i : Interpolation) (t : α) : α → Point α → List (Point α) → α
  | _, p, [] => p.value
  | before, p, q :: rest =>
      if q.time ≤ t then valueFrom i t p.value q rest
      else between i before p q ((rest.head?.map (·.value)).getD q.value) t

def valueAt (i : Interpolation) (t : α) : List (Point α) → α
  | [] => 0.0
  | p :: rest => if t ≤ p.time then p.value else valueFrom i t p.value p rest

/-! ### Reading -/

/-- The time of a point is zero if neither a time nor a bar tells it; an unreadable beat is the
first. -/
def time? (m : Meter) (raw : Json.Value α) : Option α :=
  match raw.first? ["time_q", "start_q"] with
  | some time => time.numeric?
  | none =>
      match (raw.find? "bar").bind Json.Value.numeric? with
      | some bar => some (m.timeAt bar (((raw.find? "beat").bind Json.Value.numeric?).getD 1.0))
      | none => some 0.0

def point? (m : Meter) (raw : Json.Value α) : Option (Point α) := do
  let value ← (← raw.find? "value").numeric?
  return ⟨← time? m raw, value⟩

def read? (default : Interpolation) (m : Meter) (name : Text) (body : Json.Value α) :
    Option (Curve α) :=
  if !body.isObject then none
  else
    let named := (body.find? "interp").bind Json.Value.text?
    let points := (((body.find? "breakpoints").map (·.elements)).getD []).filterMap (point? m)
    some ⟨name, (named.map (Interpolation.ofNameOr default)).getD default, named.isSome, points⟩

def readAll (default : Interpolation) (m : Meter) (raw : Json.Value α) : List (Curve α) :=
  raw.members.filterMap fun member => read? default m member.1 member.2

/-! ### Cleaning -/

def sortPoints (ps : List (Point α)) : List (Point α) :=
  ps.mergeSort fun p q => !decide (q.time < p.time)

/-- Of neighbours with one time the last stays. -/
def lastOfEach : List (Point α) → List (Point α)
  | [] => []
  | [p] => [p]
  | p :: q :: rest =>
      if p.time == q.time then lastOfEach (q :: rest) else p :: lastOfEach (q :: rest)

def nonnegative (x : α) : α := if 0.0 < x then x else 0.0

def bounded? (length : α) (p : Point α) : Option (Point α) :=
  if Quantity.isFinite p.time && Quantity.isFinite p.value then
    some ⟨Quantity.clamp p.time 0.0 (nonnegative length), Quantity.clamp p.value 0.0 127.0⟩
  else none

def clean (length : α) (ps : List (Point α)) : List (Point α) :=
  lastOfEach (sortPoints (ps.filterMap (bounded? length)))

end Curve

end MusicPart
