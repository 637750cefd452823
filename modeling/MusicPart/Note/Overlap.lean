import MusicPart.Note

/-!
# Overlaps

Of notes with one channel and pitch each ends before the next begins, and of those with one onset
the first stays. Then in each channel all notes of a sonority end before the next sonority begins.
No note gets shorter than the shortest note.
-/

namespace MusicPart

/-- What was done about overlaps. -/
structure Overlaps where
  duplicates : Nat := 0
  samePitch : Nat := 0
  chord : Nat := 0
  deriving Repr, DecidableEq

namespace Note

variable {α : Type} [Quantity α]

def sharesChannel (a b : Note α) : Bool := a.channel == b.channel

def sharesKey (a b : Note α) : Bool := a.channel == b.channel && a.pitch == b.pitch

def others (same : Note α → Note α → Bool) (n : Note α) (notes : List (Note α)) : List (Note α) :=
  notes.filter fun m => !same n m

/-- The notes that share something, in the order in which their first ones occur. -/
def groupsBy (same : Note α → Note α → Bool) : List (Note α) → List (List (Note α))
  | [] => []
  | n :: notes => (n :: notes.filter (same n)) :: groupsBy same (others same n notes)
termination_by notes => notes.length
decreasing_by exact Nat.lt_succ_of_le (List.length_filter_le _ _)

/-- A note that has to end by a limit and can be made shorter. -/
def cut? (limit : α) (n : Note α) : Option (Note α) :=
  let duration := Quantity.greater shortest (limit - n.start)
  if n.finish ≤ limit + slack || n.duration ≤ duration then none else some { n with duration }

/-- A note cut to leave a gap before the one that follows, and whether it had to be cut. -/
def cutBefore (next : Option (Note α)) (n : Note α) : Note α × Bool :=
  match next.bind fun m => cut? (m.start - gap) n with
  | some shorter => (shorter, true)
  | none => (n, false)

structure Separated (α : Type) where
  notes : List (Note α)
  report : Overlaps

/-! ### One channel and pitch -/

def firstOfEach : Option α → List (Note α) → List (Note α)
  | _, [] => []
  | last, n :: notes =>
      if last.any fun t => Quantity.abs (n.start - t) < slack then firstOfEach last notes
      else n :: firstOfEach (some n.start) notes

/-- The notes that `firstOfEach` leaves out. -/
def repeats : Option α → List (Note α) → List (Note α)
  | _, [] => []
  | last, n :: notes =>
      if last.any fun t => Quantity.abs (n.start - t) < slack then n :: repeats last notes
      else repeats (some n.start) notes

def cutEach : List (Note α) → List (Note α × Bool)
  | [] => []
  | n :: notes => cutBefore notes.head? n :: cutEach notes

def separateUnisons (notes : List (Note α)) : Separated α :=
  let kept := (groupsBy sharesKey notes).map fun g => firstOfEach none (sortByStart g)
  let cuts := kept.flatMap cutEach
  ⟨sort (cuts.map (·.1)),
    { duplicates := ((groupsBy sharesKey notes).flatMap fun g => repeats none (sortByStart g)).length
      samePitch := cuts.countP (·.2) }⟩

/-! ### One channel -/

/-- The notes of each sonority cut before the first note of the next one. -/
def cutSonorities : List (List (Note α)) → List (Note α × Bool)
  | [] => []
  | g :: groups => g.map (cutBefore (groups.head?.bind (·.head?))) ++ cutSonorities groups

def separateChords (notes : List (Note α)) : Separated α :=
  let cuts := (groupsBy sharesChannel notes).flatMap fun g =>
    cutSonorities (sonorities (sortByStart g))
  ⟨sort (cuts.map (·.1)), { chord := cuts.countP (·.2) }⟩

/-! ### Both -/

def separate (notes : List (Note α)) : Separated α :=
  let unisons := separateUnisons notes
  let chords := separateChords unisons.notes
  ⟨chords.notes, { unisons.report with chord := chords.report.chord }⟩

end Note

end MusicPart
