import MusicPart.Proofs.Differences
import MusicPart.Proofs.LetterCase
import MusicPart.Proofs.Rearranging
import MusicPart.Proofs.Runs

/-!
# Runs of tags

The articulations that notes ask for are told to the instrument where they change: once for each run
of one known tag, however it is spelled and whatever notes without one lie between. Events come in
order of time, early as they may be.
-/

namespace MusicPart

open Quantity (Lawful Ordered)

variable {α : Type}

/-! ### Order of onset -/

section Onsets

variable [Quantity α]

/-- The same notes in order of onset, those that begin together as they stood. -/
structure Note.SortsByOnset (notes sorted : List (Note α)) : Prop where
  perm : sorted.Perm notes
  ordered : sorted.Pairwise fun a b => ¬b.start < a.start
  stable : ∀ t : α, (t == t) = true →
    sorted.filter (fun n => t == n.start) = notes.filter fun n => t == n.start

theorem Note.sortsByOnset_sortByStart [Lawful α] {notes : List (Note α)}
    (h : ∀ n ∈ notes, n.isTimed = true) : SortsByOnset notes (sortByStart notes) := by
  have hsorted : SortedByTime start notes (sortByStart notes) := sortedByTime_mergeSort h
  exact ⟨hsorted.perm, hsorted.ordered, fun _ => hsorted.stable⟩

omit [Quantity α] in
theorem Articulator.start_erase (s : Articulator α) (n : Note α) :
    (s.erase n).start = n.start := by
  rw [erase]
  split <;> rfl

theorem Articulator.sortByStart_erase (s : Articulator α) (notes : List (Note α)) :
    Note.sortByStart (notes.map s.erase) = (Note.sortByStart notes).map s.erase := by
  refine (List.map_mergeSort (f := s.erase) fun a _ b _ => ?_).symm
  rw [start_erase, start_erase]

end Onsets

namespace Articulator

variable (s : Articulator α)

/-! ### Known tags -/

/-- The entry of a note's tag, if it has a tag that the instrument knows. -/
def known? (n : Note α) : Option Articulation :=
  if isTagged n then s.articulations.find? n.tag else none

theorem isTagged_erase_of_none {n : Note α} (h : s.known? n = none) :
    isTagged (s.erase n) = false := by
  rw [known?] at h
  rw [erase, isUnknown, knows]
  split at h
  · rename_i htag
    rw [htag, h]
    rfl
  · rename_i htag
    rw [Bool.not_eq_true] at htag
    rw [htag]
    exact htag

theorem erase_of_some {n : Note α} {a : Articulation} (h : s.known? n = some a) :
    isTagged n = true ∧ s.articulations.find? n.tag = some a ∧ s.erase n = n := by
  rw [known?] at h
  split at h
  · rename_i htag
    refine ⟨htag, h, ?_⟩
    rw [erase, isUnknown, knows, h]
    simp
  · cases h

/-! ### Runs -/

/-- The maximal runs of one known tag, letter case aside. -/
def tagRuns (notes : List (Note α)) : List (List (Note α)) :=
  runsBy (fun n => Text.lower n.tag) (notes.filter fun n => (s.known? n).isSome)

theorem runHeads_erase (last : Option Text) (notes : List (Note α)) :
    s.runHeads (last.getD []) (notes.map s.erase) =
      (leaders (fun n => Text.lower n.tag) last
        (notes.filter fun n => (s.known? n).isSome)).filterMap fun n =>
          (s.known? n).map (·, n.start) := by
  induction notes generalizing last with
  | nil => rfl
  | cons n notes ih =>
      rw [List.map_cons, runHeads]
      cases hentry : s.known? n with
      | none =>
          rw [s.isTagged_erase_of_none hentry, Bool.not_false, Bool.true_or, if_pos rfl, ih,
            List.filter_cons_of_neg (by simp [hentry])]
      | some a =>
          obtain ⟨htag, hfind, herase⟩ := s.erase_of_some hentry
          -- A tag is not the empty text that stands for none so far.
          have hrepeats :
              (Text.lower n.tag == last.getD []) = (last == some (Text.lower n.tag)) := by
            cases last with
            | none =>
                rw [isTagged, ← Text.isEmpty_lower] at htag
                simpa using htag
            | some current => exact Bool.beq_comm
          rw [herase, htag, Bool.not_true, Bool.false_or, hrepeats,
            List.filter_cons_of_pos (by simp [hentry]), leaders]
          by_cases hsame : (last == some (Text.lower n.tag)) = true
          · rw [if_pos hsame, if_pos hsame]
            exact ih last
          · rw [if_neg hsame, if_neg hsame, hfind, List.filterMap_cons, hentry]
            exact congrArg ((a, n.start) :: ·) (ih (some (Text.lower n.tag)))

/-- The first notes of the runs of known tags. -/
def changers (notes : List (Note α)) : List (Note α) := (s.tagRuns notes).filterMap List.head?

theorem changers_sublist (notes : List (Note α)) : (s.changers notes).Sublist notes := by
  rw [changers, tagRuns, filterMap_head?_runsBy]
  exact (leaders_sublist none _).trans List.filter_sublist

/-! ### Events -/

section Events

variable [Quantity α]

/-- The keyswitch for a note's tag, if its entry has a pitch. -/
def keyswitchOf? (n : Note α) : Option (Keyswitch α) :=
  (s.known? n).bind fun a => a.pitch.map fun pitch =>
    ⟨s.clampTime (n.start - s.articulations.preRoll),
      Midi.clampData (pitch + s.articulations.octaves * 12), Midi.clampVelocity a.velocity,
      s.channelOf a, s.articulations.switchLength⟩

/-- The control change for a note's tag, if its entry has a value. -/
def controlOf? (n : Note α) : Option (ControlChange α) :=
  (s.known? n).bind fun a => a.controlValue.map fun value =>
    ⟨s.clampTime (n.start - s.articulations.preRoll), Midi.clampData s.articulations.controller,
      Midi.clampData value, s.channelOf a⟩

/-- The program change for a note's tag. -/
def programOf? (n : Note α) : Option (ProgramChange α) :=
  (s.known? n).map fun a => ⟨s.clampTime n.start, Midi.clampData a.program, s.channelOf a⟩

/-- What tells the instrument about a note's tag. -/
def signalOf? (n : Note α) : Option (Signal α) :=
  (s.known? n).bind fun a => s.signal? a n.start

/-- The way of delivery decides which kind of event there is. -/
theorem signalOf?_bind (n : Note α) :
    ((s.signalOf? n).bind Signal.keyswitch? =
        if s.articulations.delivery = .keyswitch then s.keyswitchOf? n else none) ∧
      ((s.signalOf? n).bind Signal.control? =
        if s.articulations.delivery = .control then s.controlOf? n else none) ∧
      ((s.signalOf? n).bind Signal.program? =
        if s.articulations.delivery = .program then s.programOf? n else none) := by
  rw [signalOf?, keyswitchOf?, controlOf?, programOf?]
  cases s.known? n with
  | none => simp
  | some a =>
      rw [Option.bind_some, Option.bind_some, Option.bind_some, Option.map_some, signal?]
      cases s.articulations.delivery <;> cases a.pitch <;> cases a.controlValue <;>
        exact ⟨rfl, rfl, rfl⟩

theorem filterMap_runHeads (notes : List (Note α)) :
    (s.runHeads [] (notes.map s.erase)).filterMap (fun w => s.signal? w.1 w.2) =
      (s.changers notes).filterMap s.signalOf? := by
  have hheads := s.runHeads_erase none notes
  rw [Option.getD_none] at hheads
  rw [hheads, changers, tagRuns, filterMap_head?_runsBy, List.filterMap_filterMap]
  congr 1
  funext n
  rw [signalOf?]
  cases s.known? n <;> rfl

theorem resolve_of_tagged {notes : List (Note α)} (h : ∃ n ∈ notes, isTagged n = true)
    (general : Text) : ∃ label unknown, s.resolve notes [] general =
      s.assemble (if s.routesByChannel then
          s.carry none ((Note.sortByStart notes).map s.erase)
        else (Note.sortByStart notes).map s.erase)
        (s.runHeads [] ((Note.sortByStart notes).map s.erase)) label unknown := by
  have hany : notes.any isTagged = true := List.any_eq_true.mpr h
  rw [resolve, if_neg (by simp), if_pos hany, s.sortByStart_erase]
  exact ⟨_, _, rfl⟩

theorem time_keyswitchOf? {n : Note α} {e : Keyswitch α} (h : e ∈ s.keyswitchOf? n) :
    e.time = s.clampTime (n.start - s.articulations.preRoll) := by
  obtain ⟨a, -, h⟩ := Option.bind_eq_some_iff.mp h
  obtain ⟨pitch, -, rfl⟩ := Option.map_eq_some_iff.mp h
  rfl

theorem time_controlOf? {n : Note α} {e : ControlChange α} (h : e ∈ s.controlOf? n) :
    e.time = s.clampTime (n.start - s.articulations.preRoll) := by
  obtain ⟨a, -, h⟩ := Option.bind_eq_some_iff.mp h
  obtain ⟨value, -, rfl⟩ := Option.map_eq_some_iff.mp h
  rfl

theorem time_programOf? {n : Note α} {e : ProgramChange α} (h : e ∈ s.programOf? n) :
    e.time = s.clampTime n.start := by
  obtain ⟨a, -, rfl⟩ := Option.map_eq_some_iff.mp h
  rfl

/-- Events at times that follow the onsets are in order of time. -/
theorem pairwise_of_ordered {ε : Type} {time : ε → α} {g : Note α → Option ε} {shift : α → α}
    (hg : ∀ {n e}, e ∈ g n → time e = shift n.start)
    (hshift : ∀ {x y : α}, ¬y < x → ¬shift y < shift x) {notes : List (Note α)}
    (h : notes.Pairwise fun a b => ¬b.start < a.start) (c : Prop) [Decidable c] :
    (if c then notes.filterMap g else []).Pairwise fun a b => ¬time b < time a := by
  split
  · rw [List.pairwise_filterMap]
    refine h.imp fun {a b} hab e he f hf => ?_
    rw [hg he, hg hf]
    exact hshift hab
  · exact .nil

theorem not_clampTime_lt [Lawful α] {x y : α} (h : ¬y < x) : ¬s.clampTime y < s.clampTime x := by
  refine Quantity.not_clamp_lt_clamp ?_ h
  rw [Quantity.greater]
  split
  · rename_i hlength
    exact Lawful.not_lt_of_lt hlength
  · exact fun hzero => Lawful.not_lt_of_lt hzero hzero

theorem filterMap_signals {ε : Type} {f : Signal α → Option ε} {g : Note α → Option ε}
    {way : Delivery}
    (hfg : ∀ n, (s.signalOf? n).bind f = if s.articulations.delivery = way then g n else none)
    (notes : List (Note α)) :
    ((s.runHeads [] (notes.map s.erase)).filterMap fun w => s.signal? w.1 w.2).filterMap f =
      if s.articulations.delivery = way then (s.changers notes).filterMap g else [] := by
  rw [filterMap_runHeads, List.filterMap_filterMap, funext hfg]
  split
  · rfl
  · exact List.filterMap_eq_nil_iff.mpr fun _ _ => rfl

end Events

/-- A fiddle that is bowed and plucked, told about it in some way. -/
def fiddle (way : Delivery) : Articulator Rat where
  articulations :=
    { delivery := way
      entries := [("arco", ⟨some 24, 100, 2, some 10, 40, []⟩),
        ("pizz", ⟨some 25, 100, 0, some 20, 45, []⟩)]
      short := []
      longest := []
      controller := 32
      octaves := 0
      preRoll := 1 / 16
      switchLength := 1 / 8
      hold := false }
  channel := 1
  length := 4

/-- Notes in no order: plucked ones, one of them in capitals, with others between that have no tag
or an unknown one, and a bowed one. -/
def strokes : List (Note Rat) :=
  [⟨2, 1, 62, 90, 5, "PIZZ"⟩, ⟨0, 1, 59, 90, 5, []⟩, ⟨1, 1, 60, 90, 5, "pizz"⟩,
    ⟨3 / 2, 1, 61, 90, 5, []⟩, ⟨3, 1, 64, 90, 5, "arco"⟩, ⟨5 / 2, 1, 63, 90, 5, "slap"⟩]

theorem sortByStart_strokes : Note.sortByStart strokes =
    [⟨0, 1, 59, 90, 5, []⟩, ⟨1, 1, 60, 90, 5, "pizz"⟩, ⟨3 / 2, 1, 61, 90, 5, []⟩,
      ⟨2, 1, 62, 90, 5, "PIZZ"⟩, ⟨5 / 2, 1, 63, 90, 5, "slap"⟩, ⟨3, 1, 64, 90, 5, "arco"⟩] := by
  norm_num [Note.sortByStart, strokes, List.mergeSort, List.MergeSort.Internal.splitInTwo,
    List.merge]

theorem exists_isTagged_strokes : ∃ n ∈ strokes, isTagged n = true :=
  ⟨_, List.mem_cons_self, rfl⟩

end Articulator

end MusicPart
