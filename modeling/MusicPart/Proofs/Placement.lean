import MusicPart.Proofs.RawNotes
import MusicPart.Proofs.Readings

/-!
# Placed notes

A pattern places its notes at times told directly. A note that is placed once, at the time that it
has by itself, is read as before unless that time cannot be read, or its duration depended on how
the time was told.
-/

namespace MusicPart

open Json (Value)

variable {α : Type}

/-! ### Members of a placed note -/

namespace Json.Value

theorem lookup_append (key : Text) (ms ns : List (Text × Value α)) :
    lookup key (ms ++ ns) = (lookup key ms).or (lookup key ns) := by
  rw [lookup, List.find?_append, Option.map_or]
  rfl

theorem lookup_filter_of_not_mem {keys : List Text} {key : Text} (h : key ∉ keys)
    (ms : List (Text × Value α)) :
    lookup key (ms.filter fun m => !keys.contains m.1) = lookup key ms := by
  induction ms with
  | nil => rfl
  | cons m ms ih =>
      rw [List.filter_cons, lookup_cons]
      by_cases hm : m.1 = key
      · have hkeep : (!keys.contains m.1) = true := by simpa [hm] using h
        rw [if_pos hkeep, lookup_cons]
        simp [hm]
      · have hne : ¬(m.1 == key) = true := by simpa using hm
        rw [if_neg hne]
        split
        · rw [lookup_cons, if_neg hne, ih]
        · exact ih

theorem lookup_filter_of_mem {keys : List Text} {key : Text} (h : key ∈ keys)
    (ms : List (Text × Value α)) : lookup key (ms.filter fun m => !keys.contains m.1) = none := by
  rw [lookup, Option.map_eq_none_iff, List.find?_eq_none]
  intro m hm hkey
  have hkeep := (List.mem_filter.mp hm).2
  rw [eq_of_beq hkey] at hkeep
  simp [h] at hkeep

end Json.Value

namespace Pattern

variable {key : Text} (raw : Value α) (t : α)

theorem find?_place_of_not_mem (h : key ∉ timeKeys) : (place raw t).find? key = raw.find? key := by
  have hstart : ¬(Text.ofString "start_q" == key) = true := by
    intro hkey
    apply h
    rw [← eq_of_beq hkey]
    decide
  change Value.lookup key (_ ++ _) = Value.lookup key raw.members
  rw [Value.lookup_append, Value.lookup_filter_of_not_mem h, Value.lookup_cons, if_neg hstart]
  exact Option.or_none

theorem find?_place_start : (place raw t).find? "start_q" = some (.number t) := by
  change Value.lookup _ (_ ++ _) = _
  rw [Value.lookup_append, Value.lookup_filter_of_mem (by decide)]
  rfl

theorem first?_place {keys : List Text} (h : ∀ key ∈ keys, key ∉ timeKeys) :
    (place raw t).first? keys = raw.first? keys := by
  rw [Value.first?, Value.first?]
  induction keys with
  | nil => rfl
  | cons key keys ih =>
      rw [List.findSome?_cons, List.findSome?_cons, ih fun k hk => h k (List.mem_cons_of_mem key hk)]
      rw [Value.present?, Value.present?, find?_place_of_not_mem raw t (h key List.mem_cons_self)]

theorem first?_place_start : (place raw t).first? ["start_q", "time_q"] = some (.number t) := by
  have hpresent : (place raw t).present? "start_q" = some (.number t) := by
    rw [Value.present?, find?_place_start]
    rfl
  rw [Value.first?, List.findSome?_cons, hpresent]

theorem onset?_place [Quantity α] (m : Meter) : Position.onset? m (place raw t) = some t := by
  rw [Position.onset?, Position.read?, first?_place_start]
  rfl

end Pattern

variable [Quantity α]

/-! ### Placing once -/

/-- The second note is the first one, at an onset that is the same number. -/
def Note.Matches (a b : Note α) : Prop :=
  (a.start == b.start) = true ∧ b = { a with start := b.start }

namespace Pattern

/-- A placed note tells its time directly. -/
theorem defaultDuration_place (raw : Value α) (t : α) :
    Note.defaultDuration (place raw t) = Note.shortest := by
  rw [Note.defaultDuration, first?_place_start]
  rfl

theorem untimed?_place (channel : Int) (default : α) (raw : Value α) (t : α) :
    Note.untimed? channel default (place raw t) = Note.untimed? channel default raw := by
  have hfirst {keys : List Text} (h : ∀ key ∈ keys, key ∉ timeKeys) :
      (place raw t).first? keys = raw.first? keys := first?_place raw t h
  simp only [Note.untimed?, Note.durationOr?, Note.velocityOr?, Note.tagOf]
  rw [hfirst (by decide), hfirst (by decide), hfirst (by decide), hfirst (by decide),
    hfirst (by decide)]

theorem read?_place (m : Meter) (channel : Int) (raw : Value α) (t : α) :
    Note.read? m channel (place raw t) =
      if Quantity.isFinite t then
        (Note.untimed? channel Note.shortest raw).map fun n => { n with start := t }
      else none := by
  have hobject : (place raw t).isObject = true := rfl
  rw [Note.read?_eq m channel hobject, onset?_place, defaultDuration_place, untimed?_place]
  rfl

variable [Quantity.Lawful α]

theorem isFinite_defaultDuration (raw : Value α) :
    Quantity.isFinite (Note.defaultDuration raw) = true := by
  rw [Note.defaultDuration]
  split
  · exact Quantity.Lawful.isFinite_one
  · exact Quantity.Lawful.isFinite_sixteenth

/-- Adding a zero leaves the number as it is. -/
theorem zero_add_spec {z : α} (hz : (z == 0.0) = true) (x : α) :
    Quantity.isFinite (z + x) = Quantity.isFinite x ∧
      (Quantity.isFinite x = true → (x == z + x) = true) := by
  rcases Quantity.Lawful.zero_add (a := x) hz with h | ⟨hx, hzx⟩
  · rw [h]
    exact ⟨rfl, fun hx => Quantity.Lawful.isNumber_of_isFinite hx⟩
  · rw [Quantity.Lawful.isFinite_of_beq_zero hx, Quantity.Lawful.isFinite_of_beq_zero hzx]
    exact ⟨rfl, fun _ => Quantity.Lawful.beq_of_beq_zero hx hzx⟩

/-- A note that is placed at its own onset is read as before, if it tells its duration or would
have the shortest one anyway. -/
theorem matches_place_iff {m : Meter} {channel : Int} {raw : Value α}
    (hobject : raw.isObject = true) {x t : α} (hx : Position.onset? m raw = some x)
    (hfinite : Quantity.isFinite t = Quantity.isFinite x)
    (ht : Quantity.isFinite x = true → (x == t) = true) :
    Option.Rel Note.Matches (Note.read? m channel raw) (Note.read? m channel (place raw t)) ↔
      (Note.read? m channel raw = none ∧ Note.read? m channel (place raw t) = none) ∨
        Note.TellsDuration raw ∨ Note.defaultDuration raw = Note.shortest := by
  rw [Note.read?_eq m channel hobject, hx, Option.bind_some, read?_place, hfinite]
  cases hf : Quantity.isFinite x with
  | false => exact ⟨fun _ => Or.inl ⟨rfl, rfl⟩, fun _ => .none⟩
  | true =>
      have hxt := ht hf
      by_cases htold : Note.TellsDuration raw
      · rw [Note.untimed?_of_tellsDuration htold channel (Note.defaultDuration raw) Note.shortest]
        cases Note.untimed? channel Note.shortest raw with
        | none => exact ⟨fun _ => Or.inl ⟨rfl, rfl⟩, fun _ => .none⟩
        | some n => exact ⟨fun _ => Or.inr (Or.inl htold), fun _ => .some ⟨hxt, rfl⟩⟩
      · have hshortest : Quantity.isFinite (Note.shortest : α) = true :=
          Quantity.Lawful.isFinite_sixteenth
        rw [Note.untimed?_of_not_tellsDuration htold channel hshortest
          (isFinite_defaultDuration raw)]
        cases hn : Note.untimed? channel Note.shortest raw with
        | none => exact ⟨fun _ => Or.inl ⟨rfl, rfl⟩, fun _ => .none⟩
        | some n =>
            have hduration := Note.duration_of_not_tellsDuration htold hshortest hn
            constructor
            · rintro (⟨-, heq⟩ | -)
              have hsame := congrArg Note.duration heq
              exact Or.inr (Or.inr (hsame.symm.trans hduration))
            · rintro (⟨h, -⟩ | h | h)
              · exact nomatch h
              · exact absurd h htold
              · refine .some ⟨hxt, ?_⟩
                rw [h, ← hduration]

/-- What is placed at no distance is read as the note by itself is, if neither can be read; or else
if the distance is told by a finite step, the note has an onset, and it tells its duration or would
have the shortest one anyway. -/
theorem matches_placeAt_iff {m : Meter} {n : Value α} (hobject : n.isObject = true) {start : α}
    (hstart : (start == 0.0) = true) (step : α) (channel : Int) :
    Option.Rel Note.Matches (Note.read? m channel n)
        (Note.read? m channel (placeAt m (start + Quantity.ofInt 0 * step) n)) ↔
      (Note.read? m channel n = none ∧
          Note.read? m channel (placeAt m (start + Quantity.ofInt 0 * step) n) = none) ∨
        Quantity.isFinite step = true ∧ (Position.onset? m n).isSome = true ∧
          (Note.TellsDuration n ∨ Note.defaultDuration n = Note.shortest) := by
  rw [placeAt]
  cases hx : Position.onset? m n with
  | none =>
      have hnone : Note.read? m channel n = none := by
        rw [Note.read?_eq m channel hobject, hx]
        rfl
      rw [hnone]
      cases Note.read? m channel (place n (start + Quantity.ofInt 0 * step +
        (none : Option α).getD 0.0)) <;> simp
  | some x =>
      rw [Option.getD_some]
      cases hs : Quantity.isFinite step with
      | false =>
          have hlost :
              Note.read? m channel (place n (start + Quantity.ofInt 0 * step + x)) = none := by
            rw [read?_place, Quantity.Lawful.not_isFinite_zero_mul hs]
            rfl
          rw [hlost]
          cases Note.read? m channel n <;> simp
      | true =>
          obtain ⟨hfinite, ht⟩ :=
            zero_add_spec (Quantity.Lawful.zero_add_zero_mul hstart hs) x
          rw [matches_place_iff hobject hx hfinite ht]
          simp only [Option.isSome_some, true_and]

/-- A pattern of one note that is repeated once from the beginning places that note. What is placed
is read as the note by itself is, if neither can be read; or else if the length of the pattern is
finite, the note has an onset, and it tells its duration or would have the shortest one anyway. -/
theorem expand_once {m : Meter} {candidate raw n : Value α} {patterns : List (Value α)}
    {r : Repeat α} (hp : candidate.find? "patterns" = some (.array patterns))
    (hr : candidate.find? "repeats" = some (.array [raw]))
    (hread : readRepeat? m (patterns.filterMap (read? m)) raw = some r)
    (hnotes : r.pattern.notes = [n]) (hobject : n.isObject = true) (hcount : r.count = 1)
    (hstart : (r.start == 0.0) = true) (channel : Int) :
    ∃ placed, (expand m candidate).notes = [placed] ∧
      (Option.Rel Note.Matches (Note.read? m channel n) (Note.read? m channel placed) ↔
        (Note.read? m channel n = none ∧ Note.read? m channel placed = none) ∨
          Quantity.isFinite r.step = true ∧ (Position.onset? m n).isSome = true ∧
            (Note.TellsDuration n ∨ Note.defaultDuration n = Note.shortest)) := by
  refine ⟨placeAt m (r.start + Quantity.ofInt 0 * r.step) n, ?_,
    matches_placeAt_iff hobject hstart r.step channel⟩
  have hplacements : placements m r = [placeAt m (r.start + Quantity.ofInt 0 * r.step) n] := by
    rw [placements, hnotes, hcount]
    simp [hobject]
  rw [expand, hp, hr]
  simp [expandFrom, hread, hplacements, maxNotes]

end Pattern

/-- A tone of two quarters, which says so. -/
def toldTone : Value Rat := .object [("pitch", .number 60), ("dur_q", .number 2)]

def lonePattern : Value Rat := .object [("id", .string "a"), ("notes", .array [toldTone])]

def loneRepeat : Value Rat := .object [("pattern", .string "a"), ("times", .number 1)]

def patterned : Value Rat :=
  .object [("patterns", .array [lonePattern]), ("repeats", .array [loneRepeat])]

def readLoneRepeat : Repeat Rat :=
  (Pattern.readRepeat? {} ([lonePattern].filterMap (Pattern.read? {})) loneRepeat).get (by decide +kernel)

theorem expand_patterned : patterned.find? "patterns" = some (.array [lonePattern]) ∧
    patterned.find? "repeats" = some (.array [loneRepeat]) ∧
    Pattern.readRepeat? {} ([lonePattern].filterMap (Pattern.read? {})) loneRepeat =
      some readLoneRepeat ∧
    readLoneRepeat.pattern.notes = [toldTone] ∧ toldTone.isObject = true ∧
    readLoneRepeat.count = 1 ∧ (readLoneRepeat.start == 0.0) = true ∧
    ∃ placed, (Pattern.expand {} patterned).notes = [placed] ∧
      (Option.Rel Note.Matches (Note.read? {} 1 toldTone) (Note.read? {} 1 placed) ↔
        (Note.read? {} 1 toldTone = none ∧ Note.read? {} 1 placed = none) ∨
          Quantity.isFinite readLoneRepeat.step = true ∧
            (Position.onset? {} toldTone).isSome = true ∧
              (Note.TellsDuration toldTone ∨ Note.defaultDuration toldTone = Note.shortest)) := by
  have hread : Pattern.readRepeat? {} ([lonePattern].filterMap (Pattern.read? {})) loneRepeat =
      some readLoneRepeat := (Option.some_get _).symm
  have hnotes : readLoneRepeat.pattern.notes = [toldTone] := by cbv
  have hcount : readLoneRepeat.count = 1 := by decide +kernel
  have hstart : (readLoneRepeat.start == 0.0) = true := by decide +kernel
  exact ⟨rfl, rfl, hread, hnotes, rfl, hcount, hstart,
    Pattern.expand_once rfl rfl hread hnotes rfl hcount hstart 1⟩

end MusicPart
