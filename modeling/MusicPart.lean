import MusicPart.Text.Utf8
import MusicPart.Quantity.Binary64
import MusicPart.Quantity.Exact
import MusicPart.Numeral
import MusicPart.Numeral.SixPlaces
import MusicPart.Json.Reader
import MusicPart.Json.Writer
import MusicPart.Meter
import MusicPart.Shorthand
import MusicPart.Position
import MusicPart.Chord.Label
import MusicPart.Key
import MusicPart.Chord.Snap
import MusicPart.Tempo
import MusicPart.Instrument.Reader
import MusicPart.Note.Overlap
import MusicPart.Note.Phrasing
import MusicPart.Pattern
import MusicPart.Curve.Control
import MusicPart.Articulation.Delivery
import MusicPart.Dynamics
import MusicPart.Handoff
import MusicPart.Motif
import MusicPart.Part.Bundle
import MusicPart.Part.Log
import MusicPart.CommandLine
import MusicPart.Main
import MusicPart.Proofs.ExactTime
import MusicPart.Proofs.NoteOrder
import MusicPart.Proofs.Bounds
import MusicPart.Proofs.CurveTimes
import MusicPart.Proofs.EventTimes
import MusicPart.Proofs.OneVoice
import MusicPart.Proofs.Selection
import MusicPart.Proofs.Unisons
import MusicPart.Proofs.Overlaps
import MusicPart.Proofs.Accounting
import MusicPart.Proofs.Bundles
import MusicPart.Proofs.Pedal
import MusicPart.Proofs.Refusals
import MusicPart.Proofs.Placement
import MusicPart.Proofs.Rearranging
import MusicPart.Proofs.Printable
import MusicPart.Proofs.Conversions
import MusicPart.Proofs.EncodedBundles
import MusicPart.Proofs.NameCase
import MusicPart.Proofs.Positions
import MusicPart.Proofs.Sampling
import MusicPart.Proofs.PedalRuns
import MusicPart.Proofs.UnknownTags
import MusicPart.Proofs.Swells
import MusicPart.Proofs.SwellCoverage
import MusicPart.Proofs.Expansion
import MusicPart.Proofs.Labels
import MusicPart.Proofs.Commissions
import MusicPart.Proofs.SeparateNotes
import MusicPart.Proofs.NearestTones
import MusicPart.Proofs.OneByOne
import MusicPart.Proofs.Breaths
import MusicPart.Proofs.Bows
import MusicPart.Proofs.SmoothedJumps
import MusicPart.Proofs.DrumHits
import MusicPart.Proofs.JumpSizes
import MusicPart.Proofs.FittedPitches
import MusicPart.Proofs.CleanCurves
import MusicPart.Proofs.CurveValues
import MusicPart.Proofs.TempoMarkers
import MusicPart.Proofs.Offsets
import MusicPart.Proofs.CompletedHandoffs
import MusicPart.Proofs.Completeness
import MusicPart.Proofs.PatternLengths
import MusicPart.Proofs.LoneSurrogates
import MusicPart.Proofs.WrittenNumbers
import MusicPart.Proofs.Parameters
import MusicPart.Proofs.ValidInstruments
import MusicPart.Proofs.Keys
import MusicPart.Proofs.ChordMaps
import MusicPart.Proofs.Motifs
import MusicPart.Proofs.Sonorities
