import MusicPart.Instrument
import MusicPart.Note

/-!
# Reading instruments

An instrument is described by an object with a section for each concern. A missing section or
member leaves the plain setting, an unreadable entry of a table is skipped, and every number is
brought into its bounds.
-/

namespace MusicPart.Instrument

open Json (Value)

variable {α : Type} [Quantity α]

/-! ### Members -/

def text? (raw : Value α) (key : Text) : Option Text := (raw.find? key).bind Value.text?

def number? (raw : Value α) (key : Text) : Option α := (raw.find? key).bind Value.numeric?

def int? (raw : Value α) (key : Text) : Option Int := (number? raw key).map Value.saturate

def section? (raw : Value α) (key : Text) : Option (Value α) :=
  (raw.find? key).filter Value.isObject

/-- Entries of a section that can be read, under their names in lower case. -/
def entries {β : Type} (raw : Value α) (key : Text) (read : Value α → Option β) : List (Text × β) :=
  ((section? raw key).map Value.members).getD [] |>.filterMap fun m =>
    (read m.2).map fun x => (Text.lower m.1, x)

/-! ### Sections -/

def range? (v : Value α) : Option PitchRange :=
  match v with
  | .array [a, b] => do
      let low := Midi.clampData (← Pitch.ofValue? a)
      let high := Midi.clampData (← Pitch.ofValue? b)
      if low < high then return ⟨low, high⟩ else return ⟨high, low⟩
  | _ => none

/-- A number of quarter notes, or a fraction of a whole note such as `1/64`. -/
def stepOf (v : Value α) : α :=
  let step? : Option α :=
    match v with
    | .number x => some x
    | .string t => do
        let (above, below) ← Text.cutAt? (Text.byte '/') t
        let above ← (Value.string above : Value α).numeric?
        let below ← (Value.string below : Value α).numeric?
        if 0.0 < below then some (4.0 * above / below) else none
    | _ => none
  match step? with
  | some step => if finestStep < step then step else finestStep
  | none => finestStep

/-- The controllers of curves. Their names are not folded. -/
def curveControllers (raw : Value α) : List (Text × Int) :=
  ((section? raw "semantic_to_cc").map Value.members).getD [] |>.filterMap fun m => do
    let cc := Value.saturate (← m.2.numeric?)
    if 0 ≤ cc && cc ≤ 127 then return (m.1, cc) else none

def readSmoothing (raw : Value α) : Smoothing α :=
  let step := ((raw.find? "min_step").map stepOf).getD finestStep
  let interpolation := ((text? raw "interp").map (Interpolation.ofNameOr .cubic)).getD .cubic
  let fixed := (text? raw "mode").any fun t => Text.lower t == Text.ofString "fixed"
  let everyStep := ((raw.find? "write_every_step").map (Value.boolOr true)).getD true
  ⟨step, interpolation, !(fixed || everyStep)⟩

def readControllers (raw : Value α) : Controllers α :=
  ⟨Table.ofList (curveControllers raw),
    ((section? raw "smoothing").map readSmoothing).getD plainSmoothing⟩

def readArticulation (channel : Int) (raw : Value α) : Articulation where
  pitch := (raw.find? "pitch").bind Pitch.ofValue?
  velocity := Midi.clampVelocity ((int? raw "vel").getD 100)
  channel := Midi.channelOr channel (raw.first? ["chan", "channel"])
  controlValue := (int? raw "cc_value").map Midi.clampData
  program := Midi.clampData ((int? raw "program").getD 0)
  dynamics := ((text? raw "dynamics").map Text.lower).getD []

def positive? (v : Value α) : Option α := v.numeric?.filter fun x => 0.0 < x

def atLeast (bound x : α) : α := if x < bound then bound else x

def readArticulations (channel : Int) (raw : Value α) : Articulations α :=
  let map := entries raw "map" fun v => if v.isObject then some v else none
  let ownLimits := map.filterMap fun m => ((m.2.find? "max_dur_q").bind positive?).map (m.1, ·)
  let plain : Articulations α := plainArticulations
  { delivery := ((text? raw "mode").map Delivery.ofName).getD .none
    entries := Table.ofList (map.map fun m => (m.1, readArticulation channel m.2))
    short := (((raw.find? "short_articulations").map Value.elements).getD []).filterMap fun v =>
      v.text?.map Text.lower
    longest := Table.ofList (ownLimits ++ entries raw "max_dur_q" positive?)
    controller := Midi.clampData ((int? raw "cc_number").getD plain.controller)
    octaves := (int? raw "octave_offset").getD plain.octaves
    preRoll := atLeast 0.0 ((number? raw "pre_roll_q").getD plain.preRoll)
    switchLength := atLeast Note.shortest ((number? raw "keyswitch_dur_q").getD plain.switchLength)
    hold := ((raw.first? ["hold_keyswitch", "sustain_keyswitch"]).map (Value.boolOr false)).getD
      plain.hold }

def readStamina (raw : Value α) : Stamina α :=
  let plain : Stamina α := plainStamina
  let pieces := (int? raw "max_segments").getD plain.maxPieces
  let bars := (number? raw "bow_max_bars").getD plain.bowBars
  { breath := atLeast Note.shortest ((number? raw "max_phrase_q").getD plain.breath)
    breathGap := atLeast 0.0 ((number? raw "breath_gap_q").getD plain.breathGap)
    maxPieces := if pieces < 1 then 1 else pieces
    bowBars := if bars ≤ 0.0 then 1.0 else bars
    bowGap := atLeast 0.0 ((number? raw "bow_gap_q").getD plain.bowGap) }

/-! ### Instruments -/

/-- The settings of the section on MIDI. -/
def withMidi (i : Instrument α) (raw : Value α) : Instrument α :=
  { i with
    channel := ((int? raw "channel").map fun n => Midi.clamp n 1 16).getD i.channel
    mono := ((text? raw "polyphony").map fun t => Text.lower t == Text.ofString "mono").getD i.mono
    isDrum := ((raw.find? "is_drum").map (Value.boolOr false)).getD i.isDrum
    drums := Table.ofList (entries raw "drum_map" fun v => (Pitch.ofValue? v).map Midi.clampData) }

def withRange (i : Instrument α) (raw : Value α) : Instrument α :=
  { i with
    range := ((raw.find? "absolute").bind range?).getD i.range
    preferred := (raw.find? "preferred").bind range? }

/-- What is said of a description that is no object. -/
def notAnObject : Text := "profile must be a JSON object"

def read? (raw : Value α) : Option (Instrument α) :=
  if !raw.isObject then none
  else
    let base : Instrument α :=
      { plain with
        id := (text? raw "id").getD []
        name := (text? raw "name").getD []
        family := ((text? raw "family").map Family.ofName).getD .unknown
        clampsPitch := (text? raw "fix_policy").any fun t => Text.lower t == Text.ofString "clamp" }
    let ranged := ((section? raw "range").map (withRange base)).getD base
    let i := ((section? raw "midi").map (withMidi ranged)).getD ranged
    some { i with
      controllers := ((section? raw "controllers").map readControllers).getD i.controllers
      articulations :=
        ((section? raw "articulations").map (readArticulations i.channel)).getD i.articulations
      stamina := ((section? raw "duration_policy").map readStamina).getD i.stamina }

end MusicPart.Instrument
