import Mathlib
import MusicPart.CommandLine.Options

/-!
# Arguments

Arguments that are options, in any order and with repetitions, are read to these options and to
nothing else: the last value given for each option that takes one, and the flags that are given.
-/

namespace MusicPart.CommandLine

/-- An option that takes a value. -/
inductive Valued where
  | candidate
  | profile
  | chordMap
  | length
  | meter
  | role
  | output
  deriving Repr, DecidableEq

inductive Flag where
  | tempo
  | arrange
  | motif
  | handoff
  | compact
  | verbose
  deriving Repr, DecidableEq

inductive Argument where
  | valued (option : Valued) (value : Text)
  | flag (flag : Flag)
  deriving Repr, DecidableEq

namespace Valued

def word : Valued → Text
  | candidate => "--candidate"
  | profile => "--profile"
  | chordMap => "--chord-map"
  | length => "--length-q"
  | meter => "--time-sig"
  | role => "--role"
  | output => "-o"

def set (value : Text) (o : Options) : Valued → Options
  | candidate => { o with candidate := value }
  | profile => { o with profile := value }
  | chordMap => { o with chordMap := value }
  | length => { o with length := ((Numeral.read? value).map (·.1)).getD (.decimal false 0 0) }
  | meter => { o with meter := (Meter.read? value).getD {} }
  | role => { o with role := value }
  | output => { o with output := value }

end Valued

namespace Flag

def word : Flag → Text
  | tempo => "--allow-tempo"
  | arrange => "--arrange"
  | motif => "--motif"
  | handoff => "--handoff"
  | compact => "--compact"
  | verbose => "--verbose"

def set (o : Options) : Flag → Options
  | tempo => { o with keepsTempo := true }
  | arrange => { o with arranged := true }
  | motif => { o with wantsMotif := true }
  | handoff => { o with wantsHandoff := true }
  | compact => { o with compact := true }
  | verbose => { o with verbose := true }

end Flag

namespace Argument

def words : Argument → List Text
  | valued option value => [option.word, value]
  | flag f => [f.word]

def set (o : Options) : Argument → Options
  | valued option value => option.set value o
  | flag f => f.set o

/-- The last value that some arguments give an option. -/
def last? (option : Valued) (as : List Argument) : Option Text :=
  (as.filterMap fun
    | valued other value => if other = option then some value else none
    | flag _ => none).getLast?

/-- The options that some arguments stand for. -/
def options (as : List Argument) : Options where
  candidate := (last? .candidate as).getD []
  profile := (last? .profile as).getD []
  chordMap := (last? .chordMap as).getD []
  output := (last? .output as).getD []
  role := (last? .role as).getD []
  length := (last? .length as).elim (.decimal false 16 0) fun t =>
    ((Numeral.read? t).map (·.1)).getD (.decimal false 0 0)
  meter := (last? .meter as).elim {} fun t => (Meter.read? t).getD {}
  keepsTempo := as.contains (.flag .tempo)
  arranged := as.contains (.flag .arrange)
  wantsMotif := as.contains (.flag .motif)
  wantsHandoff := as.contains (.flag .handoff)
  compact := as.contains (.flag .compact)
  verbose := as.contains (.flag .verbose)

/-! ### One argument -/

theorem takeAll_valued (r : Reading) (option : Valued) (value : Text) (args : List Text) :
    ∃ r' : Reading, r.takeAll (option.word :: value :: args) = r'.takeAll args ∧
      r'.options = option.set value r.options ∧ r'.help = r.help := by
  cases option with
  | meter =>
      refine ⟨r.setMeter value, rfl, ?_⟩
      rw [Reading.setMeter, Valued.set]
      cases Meter.read? value with
      | some _ => exact ⟨rfl, rfl⟩
      | none => exact ⟨rfl, rfl⟩
  | _ => exact ⟨_, rfl, rfl, rfl⟩

theorem takeAll_flag (r : Reading) (f : Flag) (args : List Text) :
    ∃ r' : Reading, r.takeAll (f.word :: args) = r'.takeAll args ∧
      r'.options = f.set r.options ∧ r'.help = r.help := by
  cases args with
  | nil => cases f <;> exact ⟨_, rfl, rfl, rfl⟩
  | cons arg args => cases f <;> exact ⟨_, rfl, rfl, rfl⟩

theorem takeAll_words (r : Reading) (a : Argument) (args : List Text) :
    ∃ r' : Reading, r.takeAll (a.words ++ args) = r'.takeAll args ∧
      r'.options = a.set r.options ∧ r'.help = r.help := by
  cases a with
  | valued option value => exact takeAll_valued r option value args
  | flag f => exact takeAll_flag r f args

/-! ### All arguments -/

theorem takeAll_flatMap_words (as : List Argument) (r : Reading) :
    (r.takeAll (as.flatMap words)).options = as.foldl set r.options ∧
      (r.takeAll (as.flatMap words)).help = r.help := by
  induction as generalizing r with
  | nil => exact ⟨rfl, rfl⟩
  | cons a as ih =>
      obtain ⟨r', htake, hoptions, hhelp⟩ := takeAll_words r a (as.flatMap words)
      rw [List.flatMap_cons, htake, List.foldl_cons, ← hoptions, ← hhelp]
      exact ih r'

theorem last?_concat_valued (option other : Valued) (value : Text) (as : List Argument) :
    last? option (as ++ [.valued other value]) =
      if other = option then some value else last? option as := by
  rw [last?, List.filterMap_append]
  by_cases h : other = option
  · simp [h]
  · simp [h, last?]

theorem last?_concat_flag (option : Valued) (f : Flag) (as : List Argument) :
    last? option (as ++ [.flag f]) = last? option as := by
  simp [last?]

/-- One argument more overrides what was given before it. -/
theorem options_concat (as : List Argument) (a : Argument) :
    options (as ++ [a]) = a.set (options as) := by
  cases a with
  | valued option value =>
      cases option <;> simp [options, last?_concat_valued, set, Valued.set]
  | flag f => cases f <;> simp [options, last?_concat_flag, set, Flag.set]

theorem foldl_set (as : List Argument) : as.foldl set {} = options as := by
  induction as using List.reverseRecOn with
  | nil => rfl
  | append_singleton as a ih =>
      rw [List.foldl_append, ih, options_concat]
      rfl

theorem readOptions_words (as : List Argument) :
    (readOptions (as.flatMap words)).options = options as ∧
      (readOptions (as.flatMap words)).help = false := by
  rw [← foldl_set]
  exact takeAll_flatMap_words as {}

end Argument

end MusicPart.CommandLine
