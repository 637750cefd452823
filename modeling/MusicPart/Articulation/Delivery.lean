import MusicPart.Articulation.Timeline
import MusicPart.Instrument
import MusicPart.Note

/-!
# Delivering articulations

The articulations of a part come from its timeline of changes, failing that from the tags of its
notes, and failing that from one name for the whole part. An instrument is told of an articulation
by an event, or by the channel of the notes. Names that it does not know are counted and ignored.
-/

namespace MusicPart

/-- An event that selects an articulation. -/
inductive Signal (α : Type) where
  | keyswitch (e : Keyswitch α)
  | control (e : ControlChange α)
  | program (e : ProgramChange α)

structure Delivered (α : Type) where
  notes : List (Note α)
  keyswitches : List (Keyswitch α)
  controls : List (ControlChange α)
  programs : List (ProgramChange α)
  /-- What the part as a whole is called: one name, or that it is mixed. -/
  label : Option Text
  unknown : Nat

/-- The instrument's articulations with its channel and the length of the selection. -/
structure Articulator (α : Type) where
  articulations : Articulations α
  channel : Int
  length : α

namespace Signal

variable {α : Type}

def keyswitch? : Signal α → Option (Keyswitch α)
  | keyswitch e => some e
  | _ => none

def control? : Signal α → Option (ControlChange α)
  | control e => some e
  | _ => none

def program? : Signal α → Option (ProgramChange α)
  | program e => some e
  | _ => none

end Signal

namespace Articulator

variable {α : Type} [Quantity α]

def knows (s : Articulator α) (name : Text) : Bool := (s.articulations.find? name).isSome

def clampTime (s : Articulator α) (time : α) : α :=
  Quantity.clamp time 0.0 (Quantity.greater 0.0 s.length)

def channelOf (s : Articulator α) (a : Articulation) : Int :=
  if 1 ≤ a.channel && a.channel ≤ 16 then a.channel else s.channel

/-! ### Events -/

/-- The event for an articulation that is wanted at a time. An entry without the pitch or the value
that it takes sends none. -/
def signal? (s : Articulator α) (a : Articulation) (time : α) : Option (Signal α) :=
  let early := s.clampTime (time - s.articulations.preRoll)
  let channel := s.channelOf a
  match s.articulations.delivery with
  | .keyswitch => a.pitch.map fun pitch =>
      .keyswitch ⟨early, Midi.clampData (pitch + s.articulations.octaves * 12),
        Midi.clampVelocity a.velocity, channel, s.articulations.switchLength⟩
  | .control => a.controlValue.map fun value =>
      .control ⟨early, Midi.clampData s.articulations.controller, Midi.clampData value, channel⟩
  | .program => some (.program ⟨s.clampTime time, Midi.clampData a.program, channel⟩)
  | .channel => none
  | .none => none

/-- Makes each keyswitch last until the next one, or to the end. -/
def held (s : Articulator α) : List (Keyswitch α) → List (Keyswitch α)
  | [] => []
  | k :: ks =>
      let finish := (ks.head?.map (·.time)).getD (Quantity.greater 0.0 s.length)
      { k with duration := Quantity.greater Note.shortest (finish - k.time) } :: held s ks

def sortSwitches (ks : List (Keyswitch α)) : List (Keyswitch α) :=
  ks.mergeSort fun a b => !decide (b.time < a.time)

def routesByChannel (s : Articulator α) : Bool := s.articulations.delivery == .channel

/-- The notes with what tells the instrument about the wanted articulations. -/
def assemble (s : Articulator α) (notes : List (Note α)) (wanted : List (Articulation × α))
    (label : Option Text) (unknown : Nat) : Delivered α :=
  let signals := wanted.filterMap fun w => s.signal? w.1 w.2
  let switches := signals.filterMap Signal.keyswitch?
  { notes, label, unknown
    keyswitches := if s.articulations.hold then s.held (sortSwitches switches) else switches
    controls := signals.filterMap Signal.control?
    programs := signals.filterMap Signal.program? }

/-! ### Names -/

def isTagged (n : Note α) : Bool := !n.tag.isEmpty

def isUnknown (s : Articulator α) (n : Note α) : Bool := isTagged n && !s.knows n.tag

/-- Erases a tag that the instrument does not know. -/
def erase (s : Articulator α) (n : Note α) : Note α :=
  if s.isUnknown n then { n with tag := [] } else n

/-- The one name of several, letter case aside, or that they are mixed. -/
def labelOf : List Text → Option Text
  | [] => none
  | name :: names =>
      if 1 < ((name :: names).map Text.lower).eraseDups.length then some "mixed" else some name

def route (channel : Int) (n : Note α) : Note α := { n with channel }

/-! ### The three sources -/

/-- All notes go to the channel of the first articulation that the instrument knows. -/
def byTimeline (s : Articulator α) (notes : List (Note α))
    (timeline : List (ArticulationChange α)) : List (Note α) × List (Articulation × α) × Nat :=
  let known := timeline.filterMap fun c => (s.articulations.find? c.name).map (·, c.time)
  let routed :=
    match known.head? with
    | some (a, _) => if s.routesByChannel then notes.map (route (s.channelOf a)) else notes
    | none => notes
  (routed, known, timeline.countP fun c => !s.knows c.name)

/-- The articulation of each note whose tag differs from the last one before it. -/
def runHeads (s : Articulator α) : Text → List (Note α) → List (Articulation × α)
  | _, [] => []
  | current, n :: notes =>
      if !isTagged n || Text.lower n.tag == current then runHeads s current notes
      else (((s.articulations.find? n.tag).map (·, n.start)).toList) ++
        runHeads s (Text.lower n.tag) notes

/-- Each note goes to the channel of the last tag so far. -/
def carry (s : Articulator α) : Option Int → List (Note α) → List (Note α)
  | _, [] => []
  | channel, n :: notes =>
      let channel := (s.articulations.find? n.tag).filter (fun _ => isTagged n) |>.map s.channelOf
        |>.or channel
      (channel.map (route · n)).getD n :: carry s channel notes

def resolve (s : Articulator α) (notes : List (Note α)) (timeline : List (ArticulationChange α))
    (general : Text) : Delivered α :=
  let unknown := notes.countP s.isUnknown
  let erased := notes.map s.erase
  if !timeline.isEmpty then
    let (routed, wanted, more) := s.byTimeline erased timeline
    s.assemble routed wanted (labelOf (timeline.map (·.name))) (unknown + more)
  else if notes.any isTagged then
    let sorted := Note.sortByStart erased
    let routed := if s.routesByChannel then s.carry none sorted else sorted
    let tags := (sorted.filter isTagged).map (·.tag)
    s.assemble routed (s.runHeads [] sorted) (labelOf tags) unknown
  else if general.isEmpty then s.assemble erased [] none unknown
  else
    match s.articulations.find? general with
    | none => s.assemble erased [] (some general) (unknown + 1)
    | some a =>
        let routed := if s.routesByChannel then erased.map (route (s.channelOf a)) else erased
        s.assemble routed [(a, 0.0)] (some general) unknown

end Articulator

end MusicPart
