import Mathlib
import MusicPart.CommandLine
import MusicPart.Proofs.Arguments
import MusicPart.Proofs.Printable
import MusicPart.Proofs.Requests
import MusicPart.Quantity.Binary64

/-!
# Commissions

A commission tells what a part is made from and how. It can be put as a request or as arguments with
files, and a session that compiles the request has the bundle that a run with these arguments
writes.
-/

namespace MusicPart

open Json (Value bind_eq_ok)
open CommandLine (Argument Files Options Outcome)

variable {α : Type}

theorem Meter.read?_common : Meter.read? "4/4" = some {} := by decide

/-! ### Members that may be missing -/

namespace Request

/-- A member has a value, or there is none and the value is the one that is meant then. -/
def Holds (raw : Value α) (key : Text) (default v : Value α) : Prop :=
  raw.find? key = some v ∨ raw.find? key = none ∧ v = default

variable {raw : Value α} {key t : Text}

theorem isSet_of_holds {b : Bool} (h : Holds raw key (.bool false) (.bool b)) :
    isSet raw key = b := by
  rw [isSet]
  obtain h | ⟨h, hb⟩ := h
  · rw [h]
    rfl
  · cases hb
    rw [h]
    rfl

theorem text?_of_holds (h : Holds raw key (.string []) (.string t)) :
    ((raw.find? key).bind Value.text?).getD [] = t := by
  obtain h | ⟨h, ht⟩ := h
  · rw [h]
    rfl
  · cases ht
    rw [h]
    rfl

theorem meterOf_of_holds {m : Meter} (hm : Meter.read? t = some m)
    (h : Holds raw "time_sig" (.string "4/4") (.string t)) : meterOf raw = .ok m := by
  rw [meterOf]
  obtain h | ⟨h, ht⟩ := h
  · simp [h, Value.text?, hm]
  · cases ht
    cases Meter.read?_common.symm.trans hm
    simp [h]

end Request

variable [Quantity α]

/-! ### Parts and outcomes -/

/-- Of a chord map only the elements count. -/
theorem Part.compile_congr_elements (i : Instrument α) {s : Settings α} {map : Value α}
    (h : map.elements = s.chordMap.elements) (candidate : Value α) :
    compile i { s with chordMap := map } candidate = compile i s candidate := by
  have hmap : Harmony.readMap s.meter map = Harmony.readMap s.meter s.chordMap := by
    rw [Harmony.readMap, Harmony.readMap, h]
  have hsnap (notes : List (Note α)) :
      Score.snap i { s with chordMap := map } notes = Score.snap i s notes := by
    simp only [Score.snap, hmap]
  have hscore : Score.ofCandidate i { s with chordMap := map } candidate =
      Score.ofCandidate i s candidate := by
    rw [Score.ofCandidate, Score.ofCandidate, hsnap]
    rfl
  rw [compile, compile, hscore]
  rfl

namespace CommandLine

/-- What a run writes, to a file or else to the standard output. -/
def Outcome.written (o : Outcome) : Text := o.saving.elim o.output (·.content)

theorem written_deliver (o : Options) (p : Part α) (errors : Text) :
    (deliver o p errors).code = 0 ∧
      (deliver o p errors).written = bundleText o p ++ [0x0A] := by
  rw [deliver]
  cases o.output.isEmpty <;> simp [Outcome.written, line]

end CommandLine

/-! ### Commissions -/

/-- What a part is made from, and how. -/
structure Commission (α : Type) [Quantity α] where
  candidate : List (Text × Value α)
  profile : List (Text × Value α)
  chordMap : Option (List (Value α)) := none
  length : α
  meter : Meter := {}
  role : Text := []
  keepsTempo : Bool := false
  arranged : Bool := false
  wantsMotif : Bool := false
  wantsHandoff : Bool := false
  verbose : Bool := false
  length_pos : 0.0 < length

namespace Commission

open CommandLine
open Request (Holds meterOf_of_holds text?_of_holds isSet_of_holds)

def settings (c : Commission α) : Settings α where
  length := c.length
  meter := c.meter
  chordMap := (c.chordMap.map .array).getD .null
  keepsTempo := c.keepsTempo
  arranged := c.arranged
  wantsMotif := c.wantsMotif
  wantsHandoff := c.wantsHandoff
  role := c.role

/-! ### As a request -/

/-- The members of a request are those of a commission. -/
structure InRequest (c : Commission α) (raw : Value α) : Prop where
  isObject : raw.isObject = true
  candidate : ∃ v, raw.find? "candidate" = some v ∧ Request.StandsFor v c.candidate
  profile : raw.find? "profile" = some (.object c.profile)
  chordMap : raw.find? "chord_map" = c.chordMap.map .array
  length : ∃ v, raw.find? "length_q" = some v ∧ Request.Tells v c.length
  meter : ∃ t, Meter.read? t = some c.meter ∧ Holds raw "time_sig" (.string "4/4") (.string t)
  role : Holds raw "role" (.string []) (.string c.role)
  keepsTempo : Holds raw "allow_tempo_changes" (.bool false) (.bool c.keepsTempo)
  arranged : Holds raw "arrangement" (.bool false) (.bool c.arranged)
  wantsMotif : Holds raw "extract_motif" (.bool false) (.bool c.wantsMotif)
  wantsHandoff : Holds raw "require_handoff" (.bool false) (.bool c.wantsHandoff)
  verbose : Holds raw "verbose" (.bool false) (.bool c.verbose)

variable {c : Commission α} {raw : Value α} {t : Text}

theorem InRequest.settingsOf_eq (h : c.InRequest raw) : Request.settingsOf raw =
    .ok { c.settings with chordMap := .array (c.chordMap.getD []) } := by
  obtain ⟨v, hv, htells⟩ := h.length
  obtain ⟨meter, hmeter, hholds⟩ := h.meter
  have hlength := Request.lengthOf_eq_ok.mpr ⟨v, hv, htells, c.length_pos⟩
  have hmap : Score.elementsOf "chord_map" raw = c.chordMap.getD [] := by
    rw [Score.elementsOf, h.chordMap]
    cases c.chordMap <;> rfl
  refine bind_eq_ok.mpr ⟨_, hlength, bind_eq_ok.mpr ⟨_, meterOf_of_holds hmeter hholds, ?_⟩⟩
  rw [hmap, text?_of_holds h.role, isSet_of_holds h.keepsTempo, isSet_of_holds h.arranged,
    isSet_of_holds h.wantsMotif, isSet_of_holds h.wantsHandoff]
  rfl

theorem InRequest.read_eq (h : c.InRequest raw) (hparse : Json.parse t = .ok raw) :
    ∃ i, Instrument.read? (.object c.profile) = some i ∧ Request.read t =
      .ok ⟨.object c.candidate, i,
        { c.settings with chordMap := .array (c.chordMap.getD []) }⟩ := by
  obtain ⟨v, hv, hstands⟩ := h.candidate
  obtain ⟨i, hi⟩ : ∃ i, Instrument.read? (.object c.profile) = some i := ⟨_, rfl⟩
  exact ⟨i, hi, Request.read_eq_ok.mpr ⟨raw, hparse, h.isObject,
    Request.candidateOf_eq_ok.mpr ⟨v, _, hv, hstands, rfl⟩,
    Request.instrumentOf_eq_ok.mpr ⟨_, h.profile, hi⟩, h.settingsOf_eq⟩⟩

/-! ### As arguments -/

/-- A file that has a name and holds a document. -/
def IsFile (files : Files) (path : Text) (v : Value α) : Prop :=
  path ≠ [] ∧ ∃ t, files path = some t ∧ Json.parse t = .ok v

/-- Arguments and files are those of a commission. -/
structure InArguments (c : Commission α) (files : Files) (as : List Argument) : Prop where
  candidate : ∃ path, Argument.last? .candidate as = some path ∧
    IsFile files path (.object c.candidate)
  profile : ∃ path, Argument.last? .profile as = some path ∧ IsFile files path (.object c.profile)
  chordMap : (∃ path es, Argument.last? .chordMap as = some path ∧ c.chordMap = some es ∧
      IsFile files path (.array es)) ∨
    (Argument.last? .chordMap as).getD [] = [] ∧ c.chordMap = none
  length : ∃ n rest, Numeral.read? ((Argument.last? .length as).getD "16") = some (n, rest) ∧
    n.value? = some c.length
  meter : Meter.read? ((Argument.last? .meter as).getD "4/4") = some c.meter
  role : (Argument.last? .role as).getD [] = c.role
  keepsTempo : .flag .tempo ∈ as ↔ c.keepsTempo = true
  arranged : .flag .arrange ∈ as ↔ c.arranged = true
  wantsMotif : .flag .motif ∈ as ↔ c.wantsMotif = true
  wantsHandoff : .flag .handoff ∈ as ↔ c.wantsHandoff = true
  verbose : .flag .verbose ∈ as ↔ c.verbose = true

variable {files : Files} {as : List Argument}

theorem IsFile.load_eq {path : Text} {v : Value α} (h : IsFile files path v) :
    load files path = .ok v := by
  obtain ⟨-, t, hfile, hparse⟩ := h
  rw [CommandLine.load, hfile]
  exact mapError_eq_ok.mpr hparse

theorem contains_eq {f : CommandLine.Flag} {b : Bool} (h : .flag f ∈ as ↔ b = true) :
    as.contains (.flag f) = b := by
  rw [Bool.eq_iff_iff, List.contains_iff_mem, h]

theorem InArguments.lengthOf_eq (h : c.InArguments files as) :
    (Argument.options as).lengthOf = c.length := by
  obtain ⟨n, rest, hread, hvalue⟩ := h.length
  have hnumeral : (Argument.options as).length = n := by
    rw [Argument.options]
    cases hlast : Argument.last? .length as with
    | none =>
        rw [hlast, Option.getD_none] at hread
        have hsixteen : Numeral.read? "16" = some (.decimal false 16 0, []) := by decide
        cases hsixteen.symm.trans hread
        rfl
    | some t =>
        rw [hlast, Option.getD_some] at hread
        simp [hread]
  rw [Options.lengthOf, hnumeral, hvalue]
  rfl

theorem InArguments.meter_eq (h : c.InArguments files as) :
    (Argument.options as).meter = c.meter := by
  have hmeter := h.meter
  rw [Argument.options]
  cases hlast : Argument.last? .meter as with
  | none =>
      rw [hlast, Option.getD_none] at hmeter
      exact Option.some.inj (Meter.read?_common.symm.trans hmeter)
  | some t =>
      rw [hlast, Option.getD_some] at hmeter
      simp [hmeter]

theorem InArguments.chordMap_load_eq (h : c.InArguments files as) :
    loadChordMap files (Argument.options as).chordMap =
      .ok ((c.chordMap.map .array).getD .null) := by
  rw [CommandLine.loadChordMap, Argument.options]
  obtain ⟨path, es, hlast, hmap, hfile⟩ | ⟨hlast, hmap⟩ := h.chordMap
  · rw [hlast, hmap, Option.getD_some, if_neg (by simpa using hfile.1), hfile.load_eq]
    rfl
  · rw [hlast, hmap]
    rfl

theorem InArguments.loadRequest_eq (h : c.InArguments files as) {i : Instrument α}
    (hi : Instrument.read? (.object c.profile) = some i) :
    loadRequest files (Argument.options as) =
      .ok ⟨.object c.candidate, i, c.settings⟩ := by
  obtain ⟨candidate, hcandidate, hcandidateFile⟩ := h.candidate
  obtain ⟨profile, hprofile, hprofileFile⟩ := h.profile
  have hinstrument : loadInstrument files (Argument.options as).profile = .ok i := by
    rw [Argument.options, hprofile, Option.getD_some]
    refine bind_eq_ok.mpr ⟨_, hprofileFile.load_eq, ?_⟩
    rw [hi]
    rfl
  have hload : load files (Argument.options as).candidate =
      .ok (.object c.candidate : Value α) := by
    rw [Argument.options, hcandidate, Option.getD_some, hcandidateFile.load_eq]
  refine bind_eq_ok.mpr ⟨_, hload, bind_eq_ok.mpr ⟨_, hinstrument,
    bind_eq_ok.mpr ⟨_, h.chordMap_load_eq, ?_⟩⟩⟩
  rw [h.lengthOf_eq, h.meter_eq]
  simp only [Argument.options, contains_eq h.keepsTempo, contains_eq h.arranged,
    contains_eq h.wantsMotif, contains_eq h.wantsHandoff, h.role]
  rfl

theorem InArguments.run_eq (h : c.InArguments files as) {i : Instrument α}
    (hi : Instrument.read? (.object c.profile) = some i) :
    ∃ errors, run α files (as.flatMap Argument.words) =
      compileRequest (Argument.options as) ⟨.object c.candidate, i, c.settings⟩
        errors := by
  obtain ⟨hoptions, hhelp⟩ := Argument.readOptions_words as
  obtain ⟨candidate, hcandidate, hcandidateFile⟩ := h.candidate
  obtain ⟨profile, hprofile, hprofileFile⟩ := h.profile
  have hpaths : ((Argument.options as).candidate.isEmpty ||
      (Argument.options as).profile.isEmpty) = false := by
    simp [Argument.options, hcandidate, hprofile, hcandidateFile.1, hprofileFile.1]
  refine ⟨(readOptions (as.flatMap Argument.words)).warnings.flatten, ?_⟩
  simp only [CommandLine.run, hoptions, hhelp, hpaths, h.loadRequest_eq hi]
  rfl

/-! ### One bundle -/

theorem InRequest.compile_eq (h : c.InRequest raw) (hparse : Json.parse t = .ok raw)
    (s : Session α) : ∃ i p, Instrument.read? (.object c.profile) = some i ∧
      Part.compile i c.settings (.object c.candidate) = .ok p ∧
      s.compile t = (⟨some p, p.bundle.render 0, [], true⟩, .ok) := by
  obtain ⟨i, hi, hread⟩ := h.read_eq hparse
  obtain ⟨p, hp, hsession⟩ := Session.compile_of_read hread s
  have helements : (Value.array (c.chordMap.getD [])).elements =
      c.settings.chordMap.elements := by
    rw [settings]
    cases c.chordMap <;> rfl
  refine ⟨i, p, hi, ?_, hsession⟩
  rw [← Part.compile_congr_elements i helements]
  exact mapError_eq_ok.mp hp

theorem InArguments.written_run (h : c.InArguments files as) (hcompact : .flag .compact ∈ as)
    {i : Instrument α} {p : Part α} (hi : Instrument.read? (.object c.profile) = some i)
    (hp : Part.compile i c.settings (.object c.candidate) = .ok p) :
    (run α files (as.flatMap Argument.words)).code = 0 ∧
      (run α files (as.flatMap Argument.words)).written = p.bundle.render 0 ++ [0x0A] := by
  obtain ⟨errors, hrun⟩ := h.run_eq hi
  have hset : (Argument.options as).compact = true := List.contains_iff_mem.mpr hcompact
  have hbundle : bundleText (Argument.options as) p = p.bundle.render 0 := by
    rw [bundleText, hset]
    rfl
  rw [hrun, compileRequest, hp, ← hbundle]
  exact written_deliver _ p _

/-- A session that compiles the request of a commission has a bundle, without a zero byte, and a run
with compact output writes this bundle and a line feed for arguments of the same commission. -/
theorem bundle_eq_written (hraw : c.InRequest raw) (hparse : Json.parse t = .ok raw)
    (hargs : c.InArguments files as) (hcompact : .flag .compact ∈ as) (s : Session α) :
    (s.compile t).2 = .ok ∧ ∃ bundle, (s.compile t).1.bundle? = some bundle ∧ 0 ∉ bundle ∧
      (run α files (as.flatMap Argument.words)).code = 0 ∧
      (run α files (as.flatMap Argument.words)).written = bundle ++ [0x0A] := by
  obtain ⟨i, p, hi, hp, hsession⟩ := hraw.compile_eq hparse s
  have hprintable : (p.bundle.render 0).Printable := Json.Value.printable_render p.bundle
  have hzero : 0 ∉ p.bundle.render 0 := fun h => absurd (hprintable 0 h) (by decide)
  rw [hsession]
  exact ⟨rfl, p.bundle.render 0, rfl, hzero, hargs.written_run hcompact hi hp⟩

/-! ### A horn in three-four -/

def hornTune : Text := "\x7b\"notes\":[\x7b\"pitch\":61,\"dur_q\":1\x7d]\x7d"

def hornProfile : Text := "\x7b\"id\":\"horn\"\x7d"

def hornChords : Text := "[\x7b\"time_q\":0,\"chord\":\"C\"\x7d]"

/-- A note that moves to a chord, and a handoff with a role. -/
def hornLead : Commission Float where
  candidate := [("notes", .array [.object [("pitch", .number 61.0), ("dur_q", .number 1.0)]])]
  profile := [("id", .string "horn")]
  chordMap := some [.object [("time_q", .number 0.0), ("chord", .string "C")]]
  length := 3.0
  meter := ⟨3, 4⟩
  role := "lead"
  wantsHandoff := true
  length_pos := by decide

def hornRequest : Text :=
  "\x7b\"candidate\":" ++ hornTune ++ ",\"profile\":" ++ hornProfile ++ ",\"chord_map\":" ++
    hornChords ++ ",\"length_q\":3,\"time_sig\":\"3/4\",\"role\":\"lead\"," ++
    "\"arrangement\":false,\"require_handoff\":true\x7d"

def hornMembers : List (Text × Value Float) :=
  [("candidate", .object hornLead.candidate), ("profile", .object hornLead.profile),
    ("chord_map", .array [.object [("time_q", .number 0.0), ("chord", .string "C")]]),
    ("length_q", .number 3.0), ("time_sig", .string "3/4"), ("role", .string "lead"),
    ("arrangement", .bool false), ("require_handoff", .bool true)]

def hornFiles : Files := fun path =>
  if path == "tune" then some hornTune
  else if path == "horn" then some hornProfile
  else if path == "chords" then some hornChords
  else none

/-- The length is given twice. -/
def hornArguments : List Argument :=
  [.valued .length "8", .flag .compact, .valued .profile "horn", .valued .chordMap "chords",
    .valued .meter "3/4", .valued .role "lead", .flag .handoff, .valued .length "3",
    .valued .candidate "tune"]

theorem hornLead_inRequest : hornLead.InRequest (.object hornMembers) where
  isObject := rfl
  candidate := ⟨_, rfl, .object⟩
  profile := rfl
  chordMap := rfl
  length := ⟨_, rfl, .number⟩
  meter := ⟨"3/4", by decide, .inl rfl⟩
  role := .inl rfl
  keepsTempo := .inr ⟨rfl, rfl⟩
  arranged := .inl rfl
  wantsMotif := .inr ⟨rfl, rfl⟩
  wantsHandoff := .inl rfl
  verbose := .inr ⟨rfl, rfl⟩

theorem hornLead_inArguments : hornLead.InArguments hornFiles hornArguments where
  candidate := ⟨"tune", by decide, by decide, hornTune, by decide, rfl⟩
  profile := ⟨"horn", by decide, by decide, hornProfile, by decide, rfl⟩
  chordMap := .inl ⟨"chords", _, by decide, rfl, by decide, hornChords, by decide, rfl⟩
  length := ⟨.decimal false 3 0, [], by decide, rfl⟩
  meter := by decide
  role := by decide
  keepsTempo := by decide
  arranged := by decide
  wantsMotif := by decide
  wantsHandoff := by decide
  verbose := by decide

set_option maxRecDepth 4000 in
theorem parse_hornRequest : Json.parse hornRequest = .ok (.object hornMembers) := rfl

theorem hornLead_bundle_eq_written : hornLead.InRequest (.object hornMembers) ∧
    Json.parse hornRequest = .ok (.object hornMembers) ∧
    hornLead.InArguments hornFiles hornArguments ∧ .flag .compact ∈ hornArguments ∧
    (Session.compile ({} : Session Float) hornRequest).2 = .ok ∧
    ∃ bundle, (Session.compile ({} : Session Float) hornRequest).1.bundle? = some bundle ∧
      0 ∉ bundle ∧
      (run Float hornFiles (hornArguments.flatMap Argument.words)).code = 0 ∧
      (run Float hornFiles (hornArguments.flatMap Argument.words)).written =
        bundle ++ [0x0A] := by
  have hcompact : .flag .compact ∈ hornArguments := by decide
  exact ⟨hornLead_inRequest, parse_hornRequest, hornLead_inArguments, hcompact,
    bundle_eq_written hornLead_inRequest parse_hornRequest hornLead_inArguments hcompact {}⟩

end Commission

end MusicPart
