import MusicPart.Part

/-!
# Logs

The counts of a part in words, a line for each stage. A name is shown up to its first NUL.
-/

namespace MusicPart.Part

open Text

variable {α : Type}

def line (parts : List Text) : Text := ("[compile] " : Text) ++ parts.flatten ++ [0x0A]

def shownLabel (p : Part α) : Text := beforeNul (p.articulation.getD [])

def noteLines (p : Part α) : List Text :=
  let r := p.report
  [line ["notes: ", ofNat r.intake.input, " raw (", ofNat r.patternNotes, " from patterns), ",
      ofNat r.intake.dropped, " dropped, ", ofNat p.notes.length, " out"],
    line ["pitch fitted ", ofNat r.intake.fitted, ", mono trimmed ", ofNat r.intake.trimmed,
      " dropped ", ofNat r.intake.crowded],
    line ["chord corrections ", ofNat r.corrections, " (anticipations ", ofNat r.anticipations,
      ")"],
    line ["overlaps: ", ofNat r.overlaps.duplicates, " duplicates, ", ofNat r.overlaps.samePitch,
      " same-pitch, ", ofNat r.overlaps.chord, " chord"],
    line ["duration: ", ofNat r.phrasing.capped, " capped, ", ofNat r.phrasing.breaths,
      " breath splits, ", ofNat r.phrasing.bows, " bow splits"]]

def eventLines (p : Part α) : List Text :=
  let r := p.report
  [line ["articulation '", shownLabel p, "', ", ofNat r.unknownArticulations, " unknown, ",
      ofNat p.keyswitches.length, " keyswitches"],
    line ["dynamics: ", ofNat r.dynamics.swell, " swell points, ", ofNat r.dynamics.smoothing,
      " smoothing points", if r.dynamics.expression then ", expression synthesized" else []],
    line [ofNat p.controls.length, " cc events, ", ofNat p.markers.length, " tempo markers (",
      ofNat r.droppedMarkers, " dropped), key ", r.key]]

def warnings (p : Part α) : List Text :=
  if p.report.patternsTruncated then
    [line ["WARNING: pattern expansion truncated at ", ofNat Pattern.maxNotes, " notes"]]
  else []

def log (p : Part α) : Text := (noteLines p ++ eventLines p ++ warnings p).flatten

end MusicPart.Part
