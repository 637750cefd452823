import MusicPart.Instrument
import MusicPart.Note

/-!
# Dynamics

A part that maps its dynamics to a controller gets a swell on every long note that the dynamics
curve does not shape yet, and one that maps its expression gets a rise and fall where that curve has
no points. A curve that was added to is then smoothed: where the value jumps, points on the straight
line are put in between.
-/

namespace MusicPart

/-- What was added to curves. -/
structure DynamicsReport where
  swell : Nat := 0
  expression : Bool := false
  smoothing : Nat := 0
  deriving Repr, DecidableEq

namespace Dynamics

variable {α : Type} [Quantity α]

/-! ### Swells -/

def shortestSwell : α := 1.0

def shortestDecay : α := 2.0

/-- Points within this distance of a time stand for one at it. -/
def window : α := 0.125

def isLong (n : Note α) : Bool := shortestDecay - Note.slack ≤ n.duration

/-- The fractions of the duration and the velocity at each point of a swell, of which the third is
for long notes. -/
def swellShape (long : Bool) : List (α × α) :=
  [(0.0, 0.75), (0.35, 1.0)] ++ (if long then [(0.75, 0.85)] else []) ++ [(0.9, 0.7)]

def swell (n : Note α) : List (Point α) :=
  (swellShape (isLong n)).map fun s =>
    ⟨n.start + n.duration * s.1,
      Quantity.clamp (Quantity.round (Quantity.ofInt n.velocity * s.2)) 0.0 127.0⟩

def isNear (time : α) (p : Point α) : Bool := Quantity.abs (p.time - time) < window

def isWithin (n : Note α) (p : Point α) : Bool :=
  n.start - Note.slack ≤ p.time && p.time ≤ n.finish + Note.slack

/-- Adds each point that has none near it. -/
def addMissing (points : List (Point α)) : List (Point α) → List (Point α)
  | [] => points
  | p :: ps => addMissing (if points.any (isNear p.time) then points else points ++ [p]) ps

def isCovered (points : List (Point α)) (n : Note α) : Bool :=
  n.duration < shortestSwell - Note.slack ||
    (if isLong n then 4 else 3) ≤ points.countP (isWithin n)

def cover (points : List (Point α)) (n : Note α) : List (Point α) :=
  if isCovered points n then points else addMissing points (swell n)

/-! ### Smoothing -/

def maxJump : α := 20.0

def jumpWindow : α := 1.0

/-- The number of steps from one point to the next before it is taken to a machine word. -/
def stepsNeeded (p q : Point α) : α :=
  Quantity.ceil (Quantity.abs (q.value - p.value) / maxJump - Note.slack)

def jumps (p q : Point α) : Bool :=
  let gap := q.time - p.time
  Note.slack < gap && gap ≤ jumpWindow + Note.slack && maxJump < Quantity.abs (q.value - p.value)

def inBetween (p q : Point α) : List (Point α) :=
  if jumps p q then
    let steps := Quantity.toWord 0x80000000 (stepsNeeded p q)
    (List.range (steps - 1).toNat).map fun (k : Nat) =>
      let part := Quantity.ofInt (k + 1) / Quantity.ofInt steps
      ⟨p.time + (q.time - p.time) * part, p.value + (q.value - p.value) * part⟩
  else []

def fill : List (Point α) → List (Point α)
  | [] => []
  | [p] => [p]
  | p :: q :: ps => p :: (inBetween p q ++ fill (q :: ps))

def smooth (points : List (Point α)) : List (Point α) := fill (Curve.sortPoints points)

def smoothCurve (c : Curve α) : Curve α := { c with points := smooth c.points }

def added (before after : List (Point α)) : Nat := after.length - before.length

/-! ### Curves -/

def isNamed (name : Text) (c : Curve α) : Bool := c.name == name

def pointsOf (name : Text) (curves : List (Curve α)) : List (Point α) :=
  ((curves.find? (isNamed name)).map (·.points)).getD []

/-- Changes the points of the first curve of a name, or adds a curve with those points. -/
def setPoints (i : Interpolation) (name : Text) (points : List (Point α)) :
    List (Curve α) → List (Curve α)
  | [] => [⟨name, i, false, points⟩]
  | c :: cs => if isNamed name c then { c with points } :: cs else c :: setPoints i name points cs

structure Shaped (α : Type) where
  curves : List (Curve α)
  report : DynamicsReport

def shapeDynamics (i : Interpolation) (notes : List (Note α)) (curves : List (Curve α)) :
    Shaped α :=
  let before := pointsOf "dynamics" curves
  let covered := notes.foldl cover before
  if added before covered = 0 then ⟨curves, {}⟩
  else
    let smoothed := smooth covered
    ⟨setPoints i "dynamics" smoothed curves,
      { swell := added before covered, smoothing := added covered smoothed }⟩

/-- A rise to the middle of the selection and a fall to its end. -/
def arch (length : α) : List (Point α) := [⟨0.0, 64.0⟩, ⟨length / 2.0, 96.0⟩, ⟨length, 64.0⟩]

def shapeExpression (i : Interpolation) (length : α) (curves : List (Curve α)) : Shaped α :=
  if (pointsOf "expression" curves).isEmpty then
    let smoothed := smooth (arch length)
    ⟨setPoints i "expression" smoothed curves,
      { expression := true, smoothing := added (arch length) smoothed }⟩
  else ⟨curves, {}⟩

def maps (c : Controllers α) (name : Text) : Bool := (c.ofCurve.find? name).any (0 ≤ ·)

def shape (c : Controllers α) (length : α) (notes : List (Note α)) (curves : List (Curve α)) :
    Shaped α :=
  if length ≤ 0.0 then ⟨curves, {}⟩
  else
    let i := c.smoothing.interpolation
    let d : Shaped α := if maps c "dynamics" then shapeDynamics i notes curves else ⟨curves, {}⟩
    let e : Shaped α :=
      if maps c "expression" then shapeExpression i length d.curves else ⟨d.curves, {}⟩
    ⟨e.curves, { swell := d.report.swell, expression := e.report.expression,
                 smoothing := d.report.smoothing + e.report.smoothing }⟩

end Dynamics

end MusicPart
