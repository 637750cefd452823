import Mathlib
import MusicPart.Proofs.Conversions
import MusicPart.Proofs.Differences

/-!
# Expanded patterns

The whole expansion of a candidate lists, for each repeat and each of its repetitions, the notes of
its pattern with the times at which they are placed. What is expanded is its first 4096 notes, each
repeat held to 256 repetitions; if nothing was truncated, then it is the whole, however many
repetitions are allowed.
-/

namespace MusicPart

open Json (Value)

theorem Json.Value.isObject_of_first? {α : Type} {v w : Value α} {keys : List Text}
    (h : v.first? keys = some w) : v.isObject = true := by
  obtain ⟨key, -, hkey⟩ := List.exists_of_findSome?_eq_some h
  exact isObject_of_find? (Option.filter_eq_some_iff.mp hkey).1

theorem Score.elementsOf_eq_nil_or {α : Type} (key : Text) (v : Value α) :
    elementsOf key v = [] ∨ v.find? key = some (.array (elementsOf key v)) := by
  rw [elementsOf]
  cases v.find? key with
  | none => exact .inl rfl
  | some u =>
      cases u with
      | array es => exact .inr rfl
      | _ => exact .inl rfl

/-! ### Numbers of times -/

namespace Quantity

/-- Finite quantities are compared by their values, and what is between two of them is finite. -/
class Valued (α : Type) [Quantity α] : Prop extends Ordered α where
  lt_iff {x y : α} {a b : Rat} : value? x = some a → value? y = some b → (x < y ↔ a < b)
  isFinite_of_not_lt {x low high : α} : IsNumber x → isFinite low = true → isFinite high = true →
    ¬x < low → ¬high < x → isFinite x = true
  value?_one : value? (1.0 : α) = some 1
  value?_ofInt {n : Int} : n.natAbs < 2 ^ 53 → value? (ofInt n : α) = some (n : Rat)

end Quantity

instance : Quantity.Valued Float where
  lt_iff := Binary64.lt_iff_of_value?
  isFinite_of_not_lt := Binary64.isFinite_of_not_lt
  value?_one := by decide +kernel
  value?_ofInt := Binary64.value?_ofInt

instance Exact.instValued : Quantity.Valued Rat where
  lt_iff hx hy := by
    cases hx
    cases hy
    rfl
  isFinite_of_not_lt _ _ _ _ _ := rfl
  value?_one := congrArg some (by norm_num)
  value?_ofInt _ := rfl

namespace Pattern

variable {α : Type}

section Times

variable [Quantity α]

/-- How often a repeat is repeated that is asked for so many times, of so many repetitions at most.
There is no end to what is asked for without a finite number. -/
def repetitions (limit : Nat) (times : α) : Nat :=
  match Quantity.value? times with
  | some r => min limit ⌊r⌋.toNat
  | none => limit

/-- Whether more repetitions are asked for than there can be. -/
def Exceeds (times : α) : Prop := Quantity.ofInt (maxRepetitions + 1) ≤ times

variable [Quantity.Valued α] {times : α}

omit [Quantity.Valued α] in
theorem isNumber_of_le [Quantity.Ordered α] {a b : α} (h : a ≤ b) : Quantity.IsNumber b :=
  (Quantity.Ordered.le_iff.mp h).2.1

theorem value?_limit : Quantity.value? (Quantity.ofInt (maxRepetitions + 1) : α) = some 257 :=
  Quantity.Valued.value?_ofInt (by decide)

theorem repetitions_of_exceeds (h : Exceeds times) :
    repetitions maxRepetitions times = maxRepetitions := by
  rw [repetitions]
  split
  · rename_i r hr
    have hle : 257 ≤ r := by
      have hnot := Quantity.Ordered.not_lt_of_le h
      rwa [Quantity.Valued.lt_iff hr value?_limit, not_lt] at hnot
    have hfloor : 257 ≤ ⌊r⌋ := Int.le_floor.mpr (by exact_mod_cast hle)
    exact min_eq_left (by rw [maxRepetitions]; omega)
  · rfl

/-- Where the limit is not exceeded, the whole part of a number is the number of repetitions. -/
theorem repetitions_of_not_exceeds (hone : 1.0 ≤ times) (h : ¬Exceeds times) {limit : Nat}
    (hlimit : maxRepetitions ≤ limit) :
    repetitions limit times = (Quantity.toInt times).toNat := by
  have hnumber := isNumber_of_le hone
  have hnot : ¬Quantity.ofInt (maxRepetitions + 1) < times :=
    fun hlt => h (Quantity.Ordered.le_of_lt hlt)
  have hfinite : Quantity.isFinite times = true :=
    Quantity.Valued.isFinite_of_not_lt hnumber (Option.isSome_of_eq_some Quantity.Valued.value?_one)
      (Option.isSome_of_eq_some value?_limit) (Quantity.Ordered.not_lt_of_le hone) hnot
  obtain ⟨r, hr⟩ := Option.isSome_iff_exists.mp hfinite
  have hpos : 0 ≤ r := by
    have hle := Quantity.Ordered.not_lt_of_le hone
    rw [Quantity.Valued.lt_iff hr Quantity.Valued.value?_one, not_lt] at hle
    linarith
  have hlt : r < 257 := by
    rw [Exceeds, Quantity.Ordered.le_iff] at h
    have hbelow : times < Quantity.ofInt (maxRepetitions + 1) := by
      by_contra hge
      exact h ⟨Quantity.Lawful.isNumber_of_isFinite (Option.isSome_of_eq_some value?_limit),
        hnumber, hge⟩
    rwa [Quantity.Valued.lt_iff hr value?_limit] at hbelow
  have hfloor : ⌊r⌋ < 257 := Int.floor_lt.mpr (by exact_mod_cast hlt)
  rw [repetitions, Quantity.toInt, hr, Option.map_some, Option.getD_some,
    Quantity.truncate_of_nonneg hpos]
  refine min_eq_right ?_
  rw [maxRepetitions] at hlimit
  omega

/-- What is neither below one nor at least one is no number, and nothing is repeated. -/
theorem toInt_of_not_le (hlow : ¬times < 1.0) (hone : ¬1.0 ≤ times) :
    Quantity.toInt times = 0 ∧ ¬Exceeds times := by
  have hnumber : ¬Quantity.IsNumber times := by
    intro hnumber
    exact hone (Quantity.Ordered.le_iff.mpr ⟨Quantity.Lawful.isNumber_of_isFinite
      Quantity.Lawful.isFinite_one, hnumber, hlow⟩)
  refine ⟨?_, fun h => hnumber (isNumber_of_le h)⟩
  rw [Quantity.toInt]
  cases hvalue : Quantity.value? times with
  | none => rfl
  | some r =>
      exact absurd (Quantity.Lawful.isNumber_of_isFinite (Option.isSome_of_eq_some hvalue)) hnumber

end Times

/-! ### Placed notes -/

/-- A note that is placed at a time has its own members in their order, but for those that tell a
time, of which there is one. -/
structure Placed (note : Value α) (t : α) (placed : Value α) : Prop where
  isObject : placed.isObject = true
  others : placed.members.filter (fun m => !timeKeys.contains m.1) =
    note.members.filter (fun m => !timeKeys.contains m.1)
  time : placed.members.filter (fun m => timeKeys.contains m.1) =
    [(Text.ofString "start_q", .number t)]

theorem placed_place (note : Value α) (t : α) : Placed note t (place note t) where
  isObject := rfl
  others := by
    rw [place, Value.members, List.filter_append, List.filter_filter]
    simp [timeKeys]
  time := by
    have hothers : (note.members.filter fun m => !timeKeys.contains m.1).filter
        (fun m => timeKeys.contains m.1) = [] := by
      rw [List.filter_filter, List.filter_eq_nil_iff]
      simp
    rw [place, Value.members, List.filter_append, hothers]
    rfl

variable [Quantity α]

/-! ### The whole expansion -/

/-- The pattern that a repeat names, the first one of its name, and how many times it is asked for,
once at least. -/
def order? (patterns : List (Pattern α)) (raw : Value α) : Option (Pattern α × α) :=
  match patterns.find? (·.id == idOf (raw.find? "pattern")),
    (raw.first? ["times", "count"]).bind Value.numeric? with
  | some p, some times => if 1.0 ≤ times then some (p, times) else none
  | _, _ => none

/-- An onset, or the beginning for what tells none. -/
def onsetOf (m : Meter) (raw : Value α) : α := (Position.onset? m raw).getD 0.0

def stepOf (p : Pattern α) (raw : Value α) : α := (positive? (raw.find? "step_q")).getD p.length

/-- The notes of one repetition, with the times at which they are placed. -/
def repetition (m : Meter) (raw : Value α) (p : Pattern α) (k : Nat) : List (Value α × α) :=
  (p.notes.filter Value.isObject).map fun note =>
    (note, onsetOf m raw + Quantity.ofInt k * stepOf p raw + onsetOf m note)

/-- What a repeat places, of so many repetitions at most. -/
def places (m : Meter) (limit : Nat) (patterns : List (Pattern α)) (raw : Value α) :
    List (Value α × α) :=
  match order? patterns raw with
  | none => []
  | some (p, times) => (List.range (repetitions limit times)).flatMap (repetition m raw p)

def patternsOf (m : Meter) (candidate : Value α) : List (Pattern α) :=
  (Score.elementsOf "patterns" candidate).filterMap (read? m)

/-- What the repeats of a candidate place, each of so many repetitions at most. -/
def unrolled (m : Meter) (limit : Nat) (candidate : Value α) : List (Value α × α) :=
  (Score.elementsOf "repeats" candidate).flatMap (places m limit (patternsOf m candidate))

/-- A repeat that asks for more repetitions than there can be. -/
def IsHeld (patterns : List (Pattern α)) (raw : Value α) : Prop :=
  ∃ p times, order? patterns raw = some (p, times) ∧ Exceeds times

variable {m : Meter} {patterns : List (Pattern α)} {raw : Value α}

/-! ### One repeat -/

theorem order?_eq_some {p : Pattern α} {times : α} : order? patterns raw = some (p, times) ↔
    patterns.find? (·.id == idOf (raw.find? "pattern")) = some p ∧
      (raw.first? ["times", "count"]).bind Value.numeric? = some times ∧ 1.0 ≤ times := by
  rw [order?]
  constructor
  · intro h
    split at h
    · rename_i q x hq hx
      obtain ⟨hle, h⟩ | ⟨-, h⟩ := ite_eq_iff.mp h
      · cases h
        exact ⟨hq, hx, hle⟩
      · cases h
    · cases h
  · rintro ⟨hp, hx, hle⟩
    rw [hp, hx]
    exact if_pos hle

section Repeat

variable [Quantity.Valued α]

/-- A repeat with an order is read as the order says. -/
theorem readRepeat?_of_order? {p : Pattern α} {times : α}
    (h : order? patterns raw = some (p, times)) :
    readRepeat? m patterns raw = some
      { pattern := p
        start := onsetOf m raw
        step := stepOf p raw
        count := if Quantity.ofInt (maxRepetitions + 1) ≤ times then maxRepetitions
          else (Quantity.toInt times).toNat
        held := decide (Quantity.ofInt (maxRepetitions + 1) ≤ times) } := by
  obtain ⟨hp, htimes, hone⟩ := order?_eq_some.mp h
  obtain ⟨v, hv, hx⟩ := Option.bind_eq_some_iff.mp htimes
  have hobject : raw.isObject = true := Value.isObject_of_first? hv
  have hlow : ¬times < 1.0 := Quantity.Ordered.not_lt_of_le hone
  rw [readRepeat?, hobject, hp, hv]
  simp [hx, hlow, onsetOf, stepOf]

/-- A repeat without one is refused, unless it asks for what is no number; then it is read and
places nothing. -/
theorem count_of_order?_eq_none (h : order? patterns raw = none) {r : Repeat α}
    (hr : readRepeat? m patterns raw = some r) : r.count = 0 ∧ r.held = false := by
  obtain ⟨-, hr⟩ | ⟨-, hr⟩ := ite_eq_iff.mp hr
  · cases hr
  · obtain ⟨p, hp, hr⟩ := Option.bind_eq_some_iff.mp hr
    obtain ⟨v, hv, hr⟩ := Option.bind_eq_some_iff.mp hr
    obtain ⟨x, hx, hr⟩ := Option.bind_eq_some_iff.mp hr
    obtain ⟨-, hr⟩ | ⟨hlow, hr⟩ := ite_eq_iff.mp hr
    · cases hr
    · have hone : ¬1.0 ≤ x := by
        intro hone
        have horder : order? patterns raw = some (p, x) :=
          order?_eq_some.mpr ⟨hp, Option.bind_eq_some_iff.mpr ⟨v, hv, hx⟩, hone⟩
        rw [h] at horder
        cases horder
      obtain ⟨hcount, hheld⟩ := toInt_of_not_le hlow hone
      have hdecide : decide (Quantity.ofInt ((maxRepetitions : Int) + 1) ≤ x) = false :=
        decide_eq_false hheld
      cases hr
      refine ⟨?_, hdecide⟩
      dsimp only
      rw [hdecide, hcount]
      rfl

/-- Of a repeat that is read the placements are those of the whole expansion, held to so many
repetitions. -/
theorem placements_of_readRepeat? {r : Repeat α} (h : readRepeat? m patterns raw = some r) :
    placements m r = (places m maxRepetitions patterns raw).map (fun p => place p.1 p.2) ∧
      (r.held = true ↔ IsHeld patterns raw) := by
  rw [places]
  cases horder : order? patterns raw with
  | none =>
      obtain ⟨hcount, hheld⟩ := count_of_order?_eq_none horder h
      rw [placements, hcount, hheld]
      refine ⟨rfl, fun h => absurd h Bool.false_ne_true, ?_⟩
      rintro ⟨p, times, hsome, -⟩
      cases horder.symm.trans hsome
  | some order =>
      obtain ⟨p, times⟩ := order
      obtain ⟨-, -, hone⟩ := order?_eq_some.mp horder
      rw [readRepeat?_of_order? horder] at h
      cases h
      have hcount : (if Quantity.ofInt (maxRepetitions + 1) ≤ times then maxRepetitions
          else (Quantity.toInt times).toNat) = repetitions maxRepetitions times := by
        split
        · rename_i hexceeds
          exact (repetitions_of_exceeds hexceeds).symm
        · rename_i hexceeds
          exact (repetitions_of_not_exceeds hone hexceeds le_rfl).symm
      constructor
      · rw [placements]
        dsimp only
        rw [hcount, List.map_flatMap]
        simp only [repetition, List.map_map]
        rfl
      · rw [decide_eq_true_eq, IsHeld, horder]
        refine ⟨fun h => ⟨p, times, rfl, h⟩, ?_⟩
        rintro ⟨_, _, hsome, h⟩
        cases hsome
        exact h

theorem places_of_readRepeat?_eq_none (h : readRepeat? m patterns raw = none) (limit : Nat) :
    places m limit patterns raw = [] ∧ ¬IsHeld patterns raw := by
  have hnone : order? patterns raw = none := by
    cases horder : order? patterns raw with
    | none => rfl
    | some order => cases h.symm.trans (readRepeat?_of_order? horder)
  refine ⟨by rw [places, hnone], ?_⟩
  rintro ⟨p, times, hsome, -⟩
  cases hnone.symm.trans hsome

/-- A repeat that is not held places no more if it may be repeated more often. -/
theorem places_of_not_isHeld (h : ¬IsHeld patterns raw) {limit : Nat}
    (hlimit : maxRepetitions ≤ limit) :
    places m limit patterns raw = places m maxRepetitions patterns raw := by
  rw [places, places]
  cases horder : order? patterns raw with
  | none => rfl
  | some order =>
      obtain ⟨p, times⟩ := order
      obtain ⟨-, -, hone⟩ := order?_eq_some.mp horder
      have hexceeds : ¬Exceeds times := fun hexceeds => h ⟨p, times, horder, hexceeds⟩
      dsimp only
      rw [repetitions_of_not_exceeds hone hexceeds hlimit,
        repetitions_of_not_exceeds hone hexceeds le_rfl]

/-! ### All repeats -/

/-- What is expanded where there is room for so many notes is so much of the whole. -/
theorem notes_expandFrom (room : Nat) (raws : List (Value α)) :
    (expandFrom m patterns room raws).notes =
      ((raws.flatMap (places m maxRepetitions patterns)).take room).map fun p => place p.1 p.2 := by
  induction raws generalizing room with
  | nil => rw [List.flatMap_nil, List.take_nil]; rfl
  | cons raw raws ih =>
      rw [expandFrom, List.flatMap_cons]
      split
      · rename_i hread
        rw [(places_of_readRepeat?_eq_none hread maxRepetitions).1, List.nil_append]
        exact ih room
      · rename_i r hread
        have hplaced := (placements_of_readRepeat? hread).1
        have hlength : (placements m r).length = (places m maxRepetitions patterns raw).length := by
          rw [hplaced, List.length_map]
        dsimp only
        split
        · rename_i hroom
          rw [List.take_append_of_le_length (by omega), List.map_take, hplaced]
        · rename_i hroom
          rw [List.take_append, List.take_of_length_le (by omega), List.map_append, ← hplaced,
            ← hlength]
          exact congrArg (placements m r ++ ·) (ih _)

/-- It is truncated if there is more than that, or if a repeat was held. -/
theorem truncated_expandFrom (room : Nat) (raws : List (Value α)) :
    (expandFrom m patterns room raws).truncated = true ↔
      room < (raws.flatMap (places m maxRepetitions patterns)).length ∨
        ∃ raw ∈ raws, IsHeld patterns raw := by
  induction raws generalizing room with
  | nil => simp [expandFrom]
  | cons raw raws ih =>
      rw [expandFrom, List.flatMap_cons, List.length_append, List.exists_mem_cons_iff]
      split
      · rename_i hread
        obtain ⟨hplaces, hheld⟩ := places_of_readRepeat?_eq_none hread maxRepetitions
        rw [hplaces, List.length_nil, Nat.zero_add]
        exact (ih room).trans (or_congr_right (or_iff_right hheld).symm)
      · rename_i r hread
        obtain ⟨hplaced, hheld⟩ := placements_of_readRepeat? hread
        have hlength : (placements m r).length = (places m maxRepetitions patterns raw).length := by
          rw [hplaced, List.length_map]
        dsimp only
        split
        · rename_i hroom
          exact ⟨fun _ => .inl (by omega), fun _ => rfl⟩
        · rename_i hroom
          rw [Bool.or_eq_true, hheld, ih]
          have hless : room - (placements m r).length <
              (raws.flatMap (places m maxRepetitions patterns)).length ↔
                room < (places m maxRepetitions patterns raw).length +
                  (raws.flatMap (places m maxRepetitions patterns)).length := by omega
          rw [hless]
          tauto

/-! ### Candidates -/

end Repeat

theorem expandFrom_nil (room : Nat) (raws : List (Value α)) :
    (expandFrom m [] room raws).notes = [] ∧ (expandFrom m [] room raws).truncated = false := by
  have hread (raw : Value α) : readRepeat? m [] raw = none := by
    rw [readRepeat?]
    cases raw.isObject <;> rfl
  induction raws with
  | nil => exact ⟨rfl, rfl⟩
  | cons raw raws ih =>
      rw [expandFrom, hread]
      exact ih

/-- A candidate without an array of patterns or of repeats has none of them. -/
theorem expand_eq (m : Meter) (candidate : Value α) :
    let whole :=
      expandFrom m (patternsOf m candidate) maxNotes (Score.elementsOf "repeats" candidate)
    (expand m candidate).notes = whole.notes ∧
      (expand m candidate).truncated = whole.truncated := by
  dsimp only
  rcases Score.elementsOf_eq_nil_or "patterns" candidate with hp | hp
  · obtain ⟨hnotes, htruncated⟩ :=
      expandFrom_nil (m := m) maxNotes (Score.elementsOf "repeats" candidate)
    rw [patternsOf, hp, List.filterMap_nil, hnotes, htruncated, expand]
    split
    · rename_i patterns repeats hpatterns _
      rw [Score.elementsOf, hpatterns] at hp
      rw [show patterns = [] from hp, List.filterMap_nil]
      exact expandFrom_nil _ _
    · exact ⟨rfl, rfl⟩
  · rcases Score.elementsOf_eq_nil_or "repeats" candidate with hr | hr
    · rw [hr, expand, hp]
      split
      · rename_i repeats _ hrepeats
        rw [Score.elementsOf, hrepeats] at hr
        rw [show repeats = [] from hr]
        exact ⟨rfl, rfl⟩
      · exact ⟨rfl, rfl⟩
    · rw [expand, hp, hr]
      exact ⟨rfl, rfl⟩

variable [Quantity.Valued α] (m : Meter) (candidate : Value α)

/-- The notes of an expansion are a beginning of the whole expansion in which no repeat is repeated
more than 256 times, of 4096 notes if there are so many, and each is placed at its time. Something
is truncated exactly if there are more notes or a repeat asks for more repetitions; if nothing is,
then these are all notes, whatever the number of repetitions that are allowed. -/
theorem expand_unrolled :
    List.Forall₂ (fun p => Placed p.1 p.2) ((unrolled m maxRepetitions candidate).take maxNotes)
        (expand m candidate).notes ∧
      ((expand m candidate).truncated = true ↔
        maxNotes < (unrolled m maxRepetitions candidate).length ∨
          ∃ raw ∈ Score.elementsOf "repeats" candidate, IsHeld (patternsOf m candidate) raw) ∧
      ((expand m candidate).truncated = false → ∀ limit, maxRepetitions ≤ limit →
        List.Forall₂ (fun p => Placed p.1 p.2) (unrolled m limit candidate)
          (expand m candidate).notes) := by
  obtain ⟨hnotes, htruncated⟩ := expand_eq m candidate
  rw [notes_expandFrom] at hnotes
  have hiff : (expand m candidate).truncated = true ↔
      maxNotes < (unrolled m maxRepetitions candidate).length ∨
        ∃ raw ∈ Score.elementsOf "repeats" candidate, IsHeld (patternsOf m candidate) raw := by
    rw [htruncated]
    exact truncated_expandFrom _ _
  have hplaced (places : List (Value α × α)) :
      List.Forall₂ (fun p => Placed p.1 p.2) places (places.map fun p => place p.1 p.2) :=
    List.forall₂_map_right_iff.mpr (List.forall₂_same.mpr fun p _ => placed_place p.1 p.2)
  refine ⟨hnotes ▸ hplaced _, hiff, fun hfalse limit hlimit => ?_⟩
  rw [hfalse] at hiff
  obtain ⟨hlength, hheld⟩ := not_or.mp fun h => Bool.false_ne_true (hiff.mpr h)
  have hsame : unrolled m limit candidate = unrolled m maxRepetitions candidate :=
    List.flatMap_congr fun raw hraw =>
      places_of_not_isHeld (fun h => hheld ⟨raw, hraw, h⟩) hlimit
  have hall : (unrolled m maxRepetitions candidate).take maxNotes =
      unrolled m maxRepetitions candidate := List.take_of_length_le (not_lt.mp hlength)
  rw [hsame, hnotes, ← hall]
  exact hplaced _

end Pattern

/-- Two tones in a pattern whose name is a number. -/
def ostinatoPattern : Value Float :=
  .object [("id", .number 7), ("length_q", .number 2), ("notes", .array [
    .object [("start_q", .number 0), ("pitch", .number 60)],
    .object [("beat", .number 2), ("pitch", .number 67)]])]

def ostinatoRepeat : Value Float := .object [("pattern", .string "7"), ("times", .number 1000)]

def ostinato : Value Float :=
  .object [("patterns", .array [ostinatoPattern]), ("repeats", .array [ostinatoRepeat])]

theorem isSome_order?_ostinato :
    (Pattern.order? (Pattern.patternsOf {} ostinato) ostinatoRepeat).isSome = true := by
  decide +kernel

theorem isHeld_ostinato : Pattern.IsHeld (Pattern.patternsOf {} ostinato) ostinatoRepeat := by
  have hexceeds : Quantity.ofInt (Pattern.maxRepetitions + 1) ≤
      ((Pattern.order? _ _).get isSome_order?_ostinato).2 := by decide +kernel
  exact ⟨_, _, (Option.some_get isSome_order?_ostinato).symm, hexceeds⟩

/-- Of a thousand repetitions there are 256, and that there are no more is told. -/
theorem ostinato_truncated : (Pattern.unrolled {} Pattern.maxRepetitions ostinato).length = 512 ∧
    (Pattern.unrolled {} 1000 ostinato).length = 2000 ∧
    List.Forall₂ (fun p => Pattern.Placed p.1 p.2)
      ((Pattern.unrolled {} Pattern.maxRepetitions ostinato).take Pattern.maxNotes)
      (Pattern.expand {} ostinato).notes ∧
    (Pattern.expand {} ostinato).truncated = true := by
  obtain ⟨hnotes, htruncated, -⟩ := Pattern.expand_unrolled {} ostinato
  have hmem : ostinatoRepeat ∈ Score.elementsOf "repeats" ostinato := List.mem_cons_self
  exact ⟨by decide +kernel, by decide +kernel, hnotes,
    htruncated.mpr (.inr ⟨ostinatoRepeat, hmem, isHeld_ostinato⟩)⟩

end MusicPart
