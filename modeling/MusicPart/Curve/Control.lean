import MusicPart.Instrument
import MusicPart.Note

/-!
# Control changes of curves

A controller follows a curve in one of three ways. A held curve changes at its breakpoints, a pedal
goes down or up where the curve crosses the middle, and any other curve is sampled. A change to the
value that the controller already has is left out, except where every sample is wanted.
-/

namespace MusicPart.Curve

variable {α : Type} [Quantity α]

/-- A time and the value that a controller takes there. -/
abbrev Setting (α : Type) := α × Int

/-- The settings that change the value, the last value so far being given. -/
def changes : Option Int → List (Setting α) → List (Setting α)
  | _, [] => []
  | last, s :: rest =>
      if last == some s.2 then changes last rest else s :: changes (some s.2) rest

def toControl (controller channel : Int) (s : Setting α) : ControlChange α :=
  ⟨s.1, controller, s.2, channel⟩

/-- The changes among some settings, with their times brought into a selection. -/
def emit (controller channel : Int) (length : α) (settings : List (Setting α)) :
    List (ControlChange α) :=
  (changes none settings).map fun s =>
    toControl controller channel (Quantity.clamp s.1 0.0 (nonnegative length), s.2)

/-! ### Holding -/

/-- The first value counts from the beginning. -/
def holdSettings (points : List (Point α)) : List (Setting α) :=
  (points.head?.map fun p => (0.0, Midi.ofQuantity p.value)).toList ++
    points.map fun p => (p.time, Midi.ofQuantity p.value)

def holdControl (controller : Int) (length : α) (channel : Int) (points : List (Point α)) :
    List (ControlChange α) :=
  emit controller channel length (holdSettings points)

/-! ### The sustain pedal -/

def pedal : Int := 64

def isPedal (name : Text) (controller : Int) : Bool :=
  name == Text.ofString "sustain_pedal" || name == Text.ofString "sustain" || controller == pedal

/-- How late the pedal goes down, so that what sounded before is released first. -/
def pedalDelay : α := 0.1

def isDown (p : Point α) : Bool := 64.0 ≤ p.value

/-- The first time of each run of points at which the pedal is in one state. -/
def pedalRuns : Option Bool → List (Point α) → List (α × Bool)
  | _, [] => []
  | state, p :: points =>
      if state == some (isDown p) then pedalRuns state points
      else (p.time, isDown p) :: pedalRuns (some (isDown p)) points

/-- A run that is down begins late if the next one, or the time after the end, comes later still. -/
def edges (after : α) : List (α × Bool) → List (Setting α)
  | [] => []
  | (time, false) :: rest => (time, 0) :: edges after rest
  | (time, true) :: rest =>
      let next := (rest.head?.map (·.1)).getD after
      let late := time + pedalDelay
      (if late < next then late else time, 127) :: edges after rest

/-- The pedal is up at the beginning. -/
def pedalSettings (length : α) (points : List (Point α)) : List (Setting α) :=
  let after := length + 1.0
  match pedalRuns none points with
  | [] => []
  | (_, false) :: rest => (0.0, 0) :: edges after rest
  | runs => (0.0, 0) :: edges after runs

def pedalControl (controller : Int) (length : α) (channel : Int) (points : List (Point α)) :
    List (ControlChange α) :=
  emit controller channel length (pedalSettings length points)

/-! ### Sampling -/

/-- The index of the last sample before it is taken to a machine word. -/
def lastSample (length step : α) : α := Quantity.floor (length / step + 1e-6)

def sample (i : Interpolation) (points : List (Point α)) (step : α) (k : Int) : Setting α :=
  let time := Quantity.ofInt k * step
  (time, Midi.ofQuantity (valueAt i time points))

def samples (i : Interpolation) (length step : α) (points : List (Point α)) : List (Setting α) :=
  if points.isEmpty || length < 0.0 then []
  else
    let step := if step < Instrument.finestStep then Instrument.finestStep else step
    let count := Quantity.toWord 0x8000000000000000 (lastSample length step) + 1
    (List.range count.toNat).map fun (k : Nat) => sample i points step k

def sampledControl (i : Interpolation) (controller : Int) (length : α) (channel : Int) (step : α)
    (sparse : Bool) (points : List (Point α)) : List (ControlChange α) :=
  let settings := samples i length step points
  (if sparse then changes none settings else settings).map (toControl controller channel)

/-! ### All curves -/

def control (c : Controllers α) (length : α) (channel : Int) (curve : Curve α) :
    List (ControlChange α) :=
  match c.ofCurve.find? curve.name with
  | none => []
  | some controller =>
      let points := clean length curve.points
      if controller < 0 || 127 < controller then []
      else if isPedal curve.name controller then pedalControl controller length channel points
      else if curve.interpolation == .hold then holdControl controller length channel points
      else sampledControl curve.interpolation controller length channel c.smoothing.step
        c.smoothing.sparse points

def controlAll (c : Controllers α) (length : α) (channel : Int) (curves : List (Curve α)) :
    List (ControlChange α) :=
  curves.flatMap (control c length channel)

end MusicPart.Curve
