import MusicPart.Note

/-!
# The character of a part

The register in which a part lies, how it feels rhythmically, and how its loudness runs.
-/

namespace MusicPart

inductive Register where
  | unknown
  | wide
  | low
  | lowMid
  | mid
  | highMid
  | high
  deriving Repr, DecidableEq

inductive Feel where
  | unknown
  | sustained
  | sparse
  | dense
  | steadyPulse
  | syncopated
  | moderate
  deriving Repr, DecidableEq

inductive Intensity where
  | steady
  | arc
  | building
  | fading
  | climax
  deriving Repr, DecidableEq

namespace Register

def name : Register → Text
  | unknown => "unknown"
  | wide => "wide"
  | low => "low"
  | lowMid => "low_mid"
  | mid => "mid"
  | highMid => "high_mid"
  | high => "high"

def isLow (r : Register) : Bool := r == low || r == lowMid

def isHigh (r : Register) : Bool := r == high || r == highMid

end Register

namespace Feel

def name : Feel → Text
  | unknown => "unknown"
  | sustained => "sustained"
  | sparse => "sparse"
  | dense => "dense"
  | steadyPulse => "steady_pulse"
  | syncopated => "syncopated"
  | moderate => "moderate"

end Feel

namespace Intensity

def name : Intensity → Text
  | steady => "static"
  | arc => "arc"
  | building => "building"
  | fading => "fading"
  | climax => "climax"

end Intensity

namespace Character

variable {α : Type} [Quantity α]

def ofNat (n : Nat) : α := Quantity.ofInt n

def total (xs : List α) : α := xs.foldl (· + ·) 0.0

def average (xs : List α) : α := total xs / ofNat xs.length

/-! ### Register -/

def lowest (notes : List (Note α)) : Int :=
  notes.foldl (fun p n => if n.pitch < p then n.pitch else p) 127

def highest (notes : List (Note α)) : Int :=
  notes.foldl (fun p n => if p < n.pitch then n.pitch else p) 0

/-- The registers by average pitch, each with its lower bound and the bound that it stays below. -/
def bands : List (Register × α × α) :=
  [(.low, 0.0, 48.0), (.lowMid, 48.0, 60.0), (.mid, 60.0, 72.0), (.highMid, 72.0, 84.0),
    (.high, 84.0, 128.0)]

/-- More than two octaves are wide wherever they lie. -/
def register (notes : List (Note α)) : Register :=
  if notes.isEmpty then .unknown
  else if 24 < highest notes - lowest notes then .wide
  else
    let mean : α := average (notes.map fun n => Quantity.ofInt n.pitch)
    ((bands.find? fun b => b.2.1 ≤ mean && mean < b.2.2).map (·.1)).getD .mid

/-! ### Rhythm -/

def spacings : List (Note α) → List α
  | n :: next :: notes => (next.start - n.start) :: spacings (next :: notes)
  | _ => []

def variance (xs : List α) : α :=
  let mean := average xs
  average (xs.map fun x => (x - mean) * (x - mean))

/-- Whether an onset is away from the nearest eighth. -/
def isOffGrid (n : Note α) : Bool :=
  0.1 < Quantity.abs (n.start - Quantity.roundTo 2.0 n.start)

def pulse (notes : List (Note α)) : Feel :=
  if notes.length < 4 then .moderate
  else if variance (spacings notes) < 0.1 then .steadyPulse
  else if (notes.take 8).any isOffGrid then .syncopated
  else .moderate

def feel (length : α) (notes : List (Note α)) : Feel :=
  if notes.isEmpty || length ≤ 0.0 then .unknown
  else
    let density := ofNat notes.length / length
    if 2.0 ≤ average (notes.map (·.duration)) then .sustained
    else if density ≤ 0.5 then .sparse
    else if 4.0 ≤ density then .dense
    else pulse (Note.sortByStart notes)

/-! ### Intensity -/

/-- Compares the velocities of the beginning, the middle third and the end. -/
def intensity (notes : List (Note α)) : Intensity :=
  let count := notes.length
  if count < 4 then .steady
  else
    let velocities : List α := (Note.sortByStart notes).map fun n => Quantity.ofInt n.velocity
    let window := max 2 (count / 4)
    let first := average (velocities.take window)
    let last := average (velocities.drop (count - window))
    let middle := average ((velocities.take (2 * count / 3)).drop (count / 3))
    let rise := last - first
    if first + 10.0 < middle && last + 10.0 < middle then .arc
    else if Quantity.abs rise < 10.0 then .steady
    else if 15.0 < rise then .building
    else if rise < -15.0 then .fading
    else if Quantity.greater first last + 15.0 < middle then .climax
    else .steady

end Character

end MusicPart
