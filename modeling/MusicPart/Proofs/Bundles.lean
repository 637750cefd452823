import MusicPart.Part.Bundle
import MusicPart.Proofs.Acceptance
import MusicPart.Proofs.Documents
import MusicPart.Proofs.WholeNumbers

/-!
# Bundles

A bundle nests no deeper than the reader allows if its candidate was read, so the reader accepts it
unless one of its numbers overflows. What it reads lists the events of the part in order, each with
its whole numbers.
-/

namespace MusicPart

open Json (Value)
open Json.Value (elementsDepth_le membersDepth_le depth_lt_of_find? depth_set_le)

/-! ### Nesting -/

section Nesting

variable {α : Type} {n : Nat}

theorem Handoff.depth_replace {v : Value α} (hv : v.depth ≤ n) (hn : 0 < n) (wrong : Bool)
    (key flag new : Text) : (replace wrong key flag new v).depth ≤ n := by
  have hnew : (string new : Value α).depth < n := hn
  have hflag : (Value.bool true : Value α).depth < n := hn
  rw [replace]
  split
  · exact depth_set_le (depth_set_le hv hnew key) hflag flag
  · exact hv

theorem Handoff.depth_shorten {v : Value α} (hv : v.depth ≤ n) (hn : 0 < n) :
    (shorten v).depth ≤ n := by
  rw [shorten]
  split
  · rename_i t _
    have hshort : (string (t.take maxSuggestion) : Value α).depth < n := hn
    split
    · exact depth_set_le hv hshort _
    · exact hv
  · exact hv

theorem Part.depth_array {β : Type} {f : β → Value α} (h : ∀ x, (f x).depth < n) (xs : List β) :
    (array f xs).depth ≤ n := by
  refine elementsDepth_le.mpr fun v hv => ?_
  obtain ⟨x, -, rfl⟩ := List.mem_map.mp hv
  exact h x

theorem Part.depth_listed {β : Type} {f : β → Value α} (h : ∀ x, (f x).depth < n) (key : Text)
    (xs : List β) : ∀ m ∈ listed key f xs, m.2.depth ≤ n := by
  rw [listed]
  split
  · exact List.forall_mem_nil _
  · exact List.forall_mem_singleton.mpr (depth_array h xs)

theorem Part.depth_unlessNull {v : Value α} (h : v.depth ≤ n) (key : Text) :
    ∀ m ∈ unlessNull key v, m.2.depth ≤ n := by
  rw [unlessNull]
  split
  · exact List.forall_mem_nil _
  · exact List.forall_mem_singleton.mpr h

variable [Quantity α]

theorem Handoff.depth_fill {source v : Value α} (hs : source.depth ≤ n) (hv : v.depth ≤ n)
    (hn : 0 < n) (key : Text) : (fill source v key).depth ≤ n := by
  rw [fill]
  split
  · exact hv
  · refine depth_set_le hv ?_ key
    cases hfound : source.find? key with
    | none => exact hn
    | some w => exact (depth_lt_of_find? hfound).trans_le hs

theorem Handoff.depth_complete {source v : Value α} (hs : source.depth ≤ n) (hv : v.depth ≤ n)
    (hn : 0 < n) : (complete source v).depth ≤ n := by
  rw [complete]
  generalize required = keys
  induction keys generalizing v with
  | nil => exact hv
  | cons key keys ih => exact ih (depth_fill hs hv hn key)

theorem Handoff.depth_ofNotes (length : α) (role : Text) (notes : List (Note α)) :
    (ofNotes length role notes).depth ≤ 1 := by
  rw [ofNotes]
  split
  · exact le_rfl
  · exact le_rfl

theorem Handoff.depth_validate (length : α) (notes : List (Note α)) {v : Value α}
    (hv : v.depth ≤ n) (hn : 0 < n) : (validate length notes v).depth ≤ n := by
  have hsource := (depth_ofNotes length [] notes).trans hn
  have hcomplete := depth_complete hsource hv hn
  have hcorrect : (correct length notes (complete (ofNotes length [] notes) v)).depth ≤ n := by
    rw [correct]
    split
    · exact hcomplete
    · exact depth_replace (depth_replace hcomplete hn _ _ _ _) hn _ _ _ _
  rw [validate]
  split
  · exact hsource
  · exact depth_shorten hcorrect hn

theorem Motif.depth_ofNotes (count : Nat) (notes : List (Note α)) :
    (ofNotes count notes).depth ≤ 3 := by
  rw [ofNotes]
  split
  · exact Nat.zero_le _
  · rename_i m rest _
    have hentry (x : Note α) : (entry m.start x).depth < 2 := Nat.lt_succ_self 1
    have hnotes := Part.depth_array hentry (m :: rest)
    have hinterval (k : Int) : (Value.ofInt k : Value α).depth < 1 := Nat.zero_lt_one
    have hintervals := Part.depth_array hinterval (steps (m :: rest))
    have hduration (x : Note α) : (Value.number x.duration).depth < 1 := Nat.zero_lt_one
    have hrhythm := Part.depth_array hduration (m :: rest)
    have hlength (x : α) : (Value.number x).depth < 3 := Nat.zero_lt_succ 2
    refine membersDepth_le.mpr ?_
    simp only [List.forall_mem_cons]
    exact ⟨Nat.lt_succ_of_le hnotes, hintervals.trans_lt (by decide), hrhythm.trans_lt (by decide),
      hlength _, List.forall_mem_nil _⟩

/-! ### Bundles -/

namespace Part

theorem depth_noteValue (x : Note α) : (noteValue x).depth < 2 := by
  rw [noteValue, tagMembers]
  split
  · exact Nat.lt_succ_self 1
  · exact Nat.lt_succ_self 1

theorem depth_markerValue (m : TempoMarker α) : (markerValue m).depth < 2 := by
  rw [markerValue]
  cases m.bpm with
  | none => cases m.meter <;> exact Nat.lt_succ_self 1
  | some bpm => cases m.meter <;> exact Nat.lt_succ_self 1

theorem depth_eventMembers (p : Part α) : ∀ m ∈ eventMembers p, m.2.depth ≤ 2 := by
  have hcontrol (c : ControlChange α) : (controlValue c).depth < 2 := Nat.lt_succ_self 1
  have hkeyswitch (k : Keyswitch α) : (keyswitchValue k).depth < 2 := Nat.lt_succ_self 1
  have hprogram (c : ProgramChange α) : (programValue c).depth < 2 := Nat.lt_succ_self 1
  have harticulation : (articulationValue p.articulation : Value α).depth ≤ 2 := by
    cases p.articulation <;> exact Nat.zero_le _
  simp only [eventMembers, List.forall_mem_cons]
  exact ⟨depth_array depth_noteValue _, depth_array hcontrol _, depth_array hkeyswitch _,
    depth_array hprogram _, harticulation, List.forall_mem_nil _⟩

theorem depth_bundle {p : Part α} (hn : 3 ≤ n) (htype : p.generationType.depth ≤ n)
    (hstyle : p.generationStyle.depth ≤ n) (hhandoff : p.handoff.depth ≤ n)
    (hmotif : p.motif.depth ≤ n) : p.bundle.depth ≤ n + 1 := by
  refine membersDepth_le.mpr fun m hm => Nat.lt_succ_of_le ?_
  have htwo {k : Nat} (h : k ≤ 2) : k ≤ n := by omega
  rcases List.mem_append.mp hm with hm | hm
  · rcases List.mem_append.mp hm with hm | hm
    · rcases List.mem_append.mp hm with hm | hm
      · rcases List.mem_append.mp hm with hm | hm
        · rcases List.mem_append.mp hm with hm | hm
          · exact htwo (depth_eventMembers p m hm)
          · exact htwo (depth_listed (fun c => Nat.lt_succ_self 1) _ _ m hm)
        · exact htwo (depth_listed depth_markerValue _ _ m hm)
      · rcases List.mem_cons.mp hm with rfl | hm
        · exact htype
        · exact List.mem_singleton.mp hm ▸ hstyle
    · exact depth_unlessNull hhandoff _ m hm
  · exact depth_unlessNull hmotif _ m hm

end Part

theorem Part.depth_handoffOf {s : Settings α} {candidate : Value α} (hc : candidate.depth ≤ n + 1)
    (hn : 0 < n) (notes : List (Note α)) : (handoffOf s candidate notes).depth ≤ n := by
  rw [handoffOf]
  split
  · rename_i v hv
    have hfound := (Option.filter_eq_some_iff.mp hv).1
    exact Handoff.depth_validate _ _ (Nat.le_of_lt_succ ((depth_lt_of_find? hfound).trans_le hc)) hn
  · split
    · exact (Handoff.depth_ofNotes _ _ _).trans hn
    · exact Nat.zero_le n

omit [Quantity α] in
theorem Part.depth_member {candidate : Value α} (hc : candidate.depth ≤ n + 1) (key : Text) :
    (member candidate key).depth ≤ n := by
  rw [member]
  cases hfound : candidate.find? key with
  | none => exact Nat.zero_le n
  | some v => exact Nat.le_of_lt_succ ((depth_lt_of_find? hfound).trans_le hc)

/-- A bundle nests at most one level deeper than what it holds. -/
theorem Part.depth_bundle_of_compile {i : Instrument α} {s : Settings α} {candidate : Value α}
    {part : Part α} (h : compile i s candidate = .ok part) (hc : candidate.depth ≤ n + 1)
    (hn : 3 ≤ n) : part.bundle.depth ≤ n + 1 := by
  have hpos : 0 < n := by omega
  obtain rfl := compile_eq_ofScore h
  refine depth_bundle hn (depth_member hc _) (depth_member hc _) (depth_handoffOf hc hpos _) ?_
  change Value.depth (if s.wantsMotif then _ else _) ≤ n
  split
  · exact (Motif.depth_ofNotes _ _).trans hn
  · exact Nat.zero_le n

end Nesting

/-! ### Reading back -/

section Reading

variable {α : Type} [Quantity α]

/-- The members of a value under some keys are whole numbers. -/
def Tells (fields : List (Text × Int)) (v : Value α) : Prop :=
  ∀ f ∈ fields, v.find? f.1 = some (.ofInt f.2)

/-- An array under a key tells of every event in turn. -/
def Lists {β : Type} (key : Text) (fields : β → List (Text × Int)) (xs : List β) (v : Value α) :
    Prop :=
  ∃ es, v.find? key = some (.array es) ∧ List.Forall₂ (fun x e => Tells (fields x) e) xs es

def Note.fields (n : Note α) : List (Text × Int) :=
  [("pitch", n.pitch), ("vel", n.velocity), ("chan", n.channel)]

def ControlChange.fields (c : ControlChange α) : List (Text × Int) :=
  [("cc", c.controller), ("value", c.value), ("chan", c.channel)]

def Keyswitch.fields (k : Keyswitch α) : List (Text × Int) :=
  [("pitch", k.pitch), ("vel", k.velocity), ("chan", k.channel)]

def ProgramChange.fields (p : ProgramChange α) : List (Text × Int) :=
  [("program", p.program), ("chan", p.channel)]

/-- A value lists the events of a part in order, each with its whole numbers. -/
structure Part.Describes (p : Part α) (v : Value α) : Prop where
  notes : Lists "notes" Note.fields p.notes v
  controls : Lists "cc_events" ControlChange.fields p.controls v
  keyswitches : Lists "keyswitches" Keyswitch.fields p.keyswitches v
  programs : Lists "program_changes" ProgramChange.fields p.programs v

end Reading

/-- What survives writing and reading. -/
structure Legible (fields : List (Text × Int)) (v : Value Float) : Prop where
  keys : (v.members.map (·.1)).Nodup
  tells : Tells fields v
  bounds : ∀ f ∈ fields, Midi.IsData f.2

theorem Legible.tells_of_reread? {fields : List (Text × Int)} {v w : Value Float}
    (h : Legible fields v) (hw : v.reread? = some w) : Tells fields w := by
  intro f hf
  obtain ⟨u, hu, hread⟩ := Value.find?_of_reread? h.keys hw (h.tells f hf)
  obtain ⟨hlow, hhigh⟩ := h.bounds f hf
  have hnumber := Value.rereadNumber?_ofInt hlow (hhigh.trans (by norm_num))
  rw [hu, ← hread]
  exact hnumber

theorem lists_of_reread? {β : Type} {f : β → Value Float} {fields : β → List (Text × Int)}
    {xs : List β} (h : ∀ x ∈ xs, Legible (fields x) (f x)) {v w : Value Float}
    (hkeys : (v.members.map (·.1)).Nodup) (hw : v.reread? = some w) {key : Text}
    (hv : v.find? key = some (Part.array f xs)) : Lists key fields xs w := by
  obtain ⟨u, hu, hread⟩ := Value.find?_of_reread? hkeys hw hv
  obtain ⟨es, rfl, hes⟩ := Value.exists_array_of_reread? hread
  refine ⟨es, hu, ?_⟩
  rw [List.forall₂_map_left_iff] at hes
  have hboth := (List.forall₂_and_left _ _).mpr ⟨h, hes⟩
  exact hboth.imp fun x e hx => hx.1.tells_of_reread? hx.2

/-! ### The events of a bundle -/

theorem Midi.IsVelocity.isData {n : Int} (h : IsVelocity n) : IsData n :=
  ⟨zero_le_one.trans h.1, h.2⟩

theorem Midi.IsChannel.isData {n : Int} (h : IsChannel n) : IsData n :=
  ⟨zero_le_one.trans h.1, h.2.trans (by decide)⟩

namespace Part

theorem legible_noteValue {n : Note Float} (h : n.Sendable) :
    Legible n.fields (noteValue n) where
  keys := by
    have hkeys : List.Nodup [Text.ofString "start_q", "dur_q", "pitch", "vel", "chan",
      "articulation"] := by decide
    rw [noteValue, tagMembers]
    split
    · exact hkeys.sublist (List.sublist_append_left _ [_])
    · exact hkeys
  tells := by
    simp only [Tells, Note.fields, List.forall_mem_cons]
    exact ⟨rfl, rfl, rfl, List.forall_mem_nil _⟩
  bounds := by
    simp only [Note.fields, List.forall_mem_cons]
    exact ⟨h.pitch, h.velocity.isData, h.channel.isData, List.forall_mem_nil _⟩

theorem legible_controlValue {c : ControlChange Float} (h : c.Sendable) :
    Legible c.fields (controlValue c) where
  keys := by
    have hkeys : List.Nodup [Text.ofString "time_q", "cc", "value", "chan"] := by decide
    exact hkeys
  tells := by
    simp only [Tells, ControlChange.fields, List.forall_mem_cons]
    exact ⟨rfl, rfl, rfl, List.forall_mem_nil _⟩
  bounds := by
    simp only [ControlChange.fields, List.forall_mem_cons]
    exact ⟨h.controller, h.value, h.channel.isData, List.forall_mem_nil _⟩

theorem legible_keyswitchValue {k : Keyswitch Float} (h : k.Sendable) :
    Legible k.fields (keyswitchValue k) where
  keys := by
    have hkeys : List.Nodup [Text.ofString "time_q", "pitch", "vel", "chan", "dur_q"] := by decide
    exact hkeys
  tells := by
    simp only [Tells, Keyswitch.fields, List.forall_mem_cons]
    exact ⟨rfl, rfl, rfl, List.forall_mem_nil _⟩
  bounds := by
    simp only [Keyswitch.fields, List.forall_mem_cons]
    exact ⟨h.pitch, h.velocity.isData, h.channel.isData, List.forall_mem_nil _⟩

theorem legible_programValue {p : ProgramChange Float} (h : p.Sendable) :
    Legible p.fields (programValue p) where
  keys := by
    have hkeys : List.Nodup [Text.ofString "time_q", "program", "chan"] := by decide
    exact hkeys
  tells := by
    simp only [Tells, ProgramChange.fields, List.forall_mem_cons]
    exact ⟨rfl, rfl, List.forall_mem_nil _⟩
  bounds := by
    simp only [ProgramChange.fields, List.forall_mem_cons]
    exact ⟨h.program, h.channel.isData, List.forall_mem_nil _⟩

/-! ### The whole -/

def bundleKeys : List Text :=
  ["notes", "cc_events", "keyswitches", "program_changes", "articulation", "articulation_changes",
    "tempo_markers", "generation_type", "generation_style", "handoff", "extracted_motif"]

theorem listed_keys_sublist {β : Type} (key : Text) (f : β → Value Float) (xs : List β) :
    ((listed key f xs).map (·.1)).Sublist [key] := by
  rw [listed]
  split
  · exact List.nil_sublist _
  · exact List.Sublist.refl _

theorem unlessNull_keys_sublist (key : Text) (v : Value Float) :
    ((unlessNull key v).map (·.1)).Sublist [key] := by
  rw [unlessNull]
  split
  · exact List.nil_sublist _
  · exact List.Sublist.refl _

theorem bundle_keys_nodup (p : Part Float) : (p.bundle.members.map (·.1)).Nodup := by
  have hkeys : bundleKeys.Nodup := by decide
  refine hkeys.sublist ?_
  rw [bundle, Value.members]
  simp only [List.map_append]
  have hevents : ((eventMembers p).map (·.1)).Sublist (bundleKeys.take 5) := List.Sublist.refl _
  exact ((((hevents.append (listed_keys_sublist _ _ _)).append (listed_keys_sublist _ _ _)).append
    (.refl [Text.ofString "generation_type", Text.ofString "generation_style"])).append
    (unlessNull_keys_sublist _ _)).append (unlessNull_keys_sublist _ _)

theorem describes_of_reread? {p : Part Float} (h : p.Sendable) {v : Value Float}
    (hv : p.bundle.reread? = some v) : p.Describes v where
  notes := lists_of_reread? (fun n hn => legible_noteValue (h.notes n hn))
    (bundle_keys_nodup p) hv rfl
  controls := lists_of_reread? (fun c hc => legible_controlValue (h.controls c hc))
    (bundle_keys_nodup p) hv rfl
  keyswitches := lists_of_reread? (fun k hk => legible_keyswitchValue (h.keyswitches k hk))
    (bundle_keys_nodup p) hv rfl
  programs := lists_of_reread? (fun c hc => legible_programValue (h.programs c hc))
    (bundle_keys_nodup p) hv rfl

/-- The reader accepts the bundle of a part unless a number in it overflows, and what it reads lists
the events of the part in order with the same whole numbers. -/
theorem compile_bundle_readable {text : Text} {candidate : Value Float}
    (hcandidate : Json.parse text = .ok candidate) {raw : Value Float} {i : Instrument Float}
    (hi : Instrument.read? raw = some i) {s : Settings Float} {part : Part Float}
    (h : compile i s candidate = .ok part) (indent : Int) :
    ((∃ v : Value Float, Json.parse (part.bundle.render indent) = .ok v) ↔
        ∀ x, .number x ∈ part.bundle.parts → Value.overflows x = false) ∧
      ∀ v : Value Float, Json.parse (part.bundle.render indent) = .ok v → part.Describes v := by
  have hdepth : part.bundle.depth ≤ Json.Reader.maxDepth :=
    depth_bundle_of_compile h (Json.depth_parse hcandidate) (by decide)
  -- Whether the bundle is read depends on its numbers alone; what is read is its rereading.
  refine ⟨Json.exists_parse_render_iff hdepth indent, fun v hv => ?_⟩
  exact describes_of_reread? (compile_sendable hi h) ((Json.parse_render_eq_ok hdepth).mp hv)

end Part

/-- A note, and a generation type that is handed on as it came. -/
def tone : Text :=
  "\x7b\"notes\":[\x7b\"pitch\":60,\"dur_q\":1\x7d],\"generation_type\":2.5\x7d"

def toneCandidate : Value Float :=
  .object [("notes", .array [.object [("pitch", .number 60.0), ("dur_q", .number 1.0)]]),
    ("generation_type", .number 2.5)]

theorem plain_tone_bundle_readable : Json.parse tone = .ok toneCandidate ∧
    Instrument.read? (.object [] : Value Float) = some Instrument.plain ∧
    ∃ part, Part.compile Instrument.plain { length := 4.0 } toneCandidate = .ok part ∧
      ((∃ v : Value Float, Json.parse (part.bundle.render 2) = .ok v) ↔
        ∀ x, .number x ∈ part.bundle.parts → Value.overflows x = false) ∧
      ∀ v : Value Float, Json.parse (part.bundle.render 2) = .ok v → part.Describes v := by
  have hparse : Json.parse tone = .ok toneCandidate := rfl
  have hread : Instrument.read? (.object [] : Value Float) = some Instrument.plain := rfl
  have hcompile : Part.compile Instrument.plain { length := 4.0 } toneCandidate =
    .ok (Part.ofScore _ _ _ (Score.ofCandidate _ _ _)) := rfl
  exact ⟨hparse, hread, _, hcompile, Part.compile_bundle_readable hparse hread hcompile 2⟩

example : Value.overflows (1e305 : Float) = true := by decide +kernel

end MusicPart
