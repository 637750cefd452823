import MusicPart.Proofs.Accounting
import MusicPart.Proofs.Positions
import MusicPart.Proofs.Rearranging
import MusicPart.Proofs.RoundingErrors
import MusicPart.Proofs.WholeNumbers
import MusicPart.Proofs.Words

/-!
# Drum hits

Every hit of a drum that an instrument knows becomes a note with the numbers of MIDI, in the order
of the hits, and is counted as such or under the reason why it is none. In binary64 its times are
within the selection up to the rounding of its end. A hit whose bar and beat make no number is taken
in all the same, and then only its duration is in bounds.
-/

namespace MusicPart

open Json (Value)
open Quantity (IsNumber)
open Binary64 (IsEven lastPlace rounded)

/-! ### Tables -/

namespace Table

variable {β : Type}

theorem mem_of_mem_insert {key : Text} {x : β} {m : Text × β} {t : Table β}
    (h : m ∈ insert key x t) : m = (key, x) ∨ m ∈ t := by
  induction t with
  | nil => exact Or.inl (List.mem_singleton.mp h)
  | cons n t ih =>
      rw [insert] at h
      split at h
      · exact (List.mem_cons.mp h).imp_right (List.mem_cons_of_mem n)
      · split at h
        · exact List.mem_cons.mp h
        · rcases List.mem_cons.mp h with rfl | h
          · exact Or.inr List.mem_cons_self
          · exact (ih h).imp_right (List.mem_cons_of_mem n)

theorem mem_of_mem_foldl {m : Text × β} {ms : List (Text × β)} {t : Table β}
    (h : m ∈ ms.foldl (fun t m => insert m.1 m.2 t) t) : m ∈ t ∨ m ∈ ms := by
  induction ms generalizing t with
  | nil => exact Or.inl h
  | cons n ms ih =>
      rcases ih h with h | h
      · rcases mem_of_mem_insert h with rfl | h
        · exact Or.inr List.mem_cons_self
        · exact Or.inl h
      · exact Or.inr (List.mem_cons_of_mem n h)

theorem mem_of_mem_ofList {m : Text × β} {ms : List (Text × β)} (h : m ∈ ofList ms) : m ∈ ms :=
  (mem_of_mem_foldl h).resolve_left List.not_mem_nil

theorem exists_mem_of_find? {key : Text} {x : β} {t : Table β} (h : t.find? key = some x) :
    ∃ m ∈ t, m.2 = x := by
  obtain ⟨m, hm, hx⟩ := Option.map_eq_some_iff.mp h
  exact ⟨m, List.mem_of_find?_eq_some hm, hx⟩

end Table

/-- Drums are mapped to pitches of MIDI. -/
theorem Instrument.read?_drums {α : Type} [Quantity α] {raw : Value α} {i : Instrument α}
    (h : read? raw = some i) : ∀ m ∈ i.drums, Midi.IsData m.2 := by
  rw [read?] at h
  split at h
  · cases h
  · extract_lets _ base ranged midi at h
    let Mapped (i : Instrument α) : Prop := ∀ m ∈ i.drums, Midi.IsData m.2
    have hbase : Mapped base := List.forall_mem_nil _
    have hranged : Mapped ranged := getD_map Mapped hbase fun _ => hbase
    have hmidi : Mapped midi := by
      refine getD_map Mapped hranged fun section' m hm => ?_
      obtain ⟨entry, -, hentry⟩ := List.mem_filterMap.mp (Table.mem_of_mem_ofList hm)
      obtain ⟨pitch, hpitch, rfl⟩ := Option.map_eq_some_iff.mp hentry
      obtain ⟨n, -, rfl⟩ := Option.map_eq_some_iff.mp hpitch
      exact Midi.isData_clampData n
    cases h
    exact hmidi

/-! ### Times -/

namespace Note

theorem value?_shortest : Quantity.value? (shortest : Float) = some (1 / 16) := by decide +kernel

variable {length start duration : Float} {l d : Rat}

theorem sixteenth_le (hl : Quantity.value? length = some l) (hlength : shortest ≤ length) :
    1 / 16 ≤ l := by
  have hlt := Quantity.Ordered.not_lt_of_le hlength
  rw [Binary64.lt_iff_of_value? hl value?_shortest] at hlt
  exact not_lt.mp hlt

/-- The exact onset and duration of a bounded note. -/
structure Settled (l s e : Rat) : Prop where
  start_nonneg : 0 ≤ s
  start_le : s ≤ rounded (l - 1 / 16)
  shortest_le : 1 / 16 ≤ e
  late_le : s + e ≤ l + lastPlace l / 2
  finish_le : IsEven l → rounded (s + e) ≤ l

/-- A note that lasts as long as there is room for it, and at least the shortest time. -/
theorem settled_cut {s : Rat} (hl : 1 / 16 ≤ l) (hs : 0 ≤ s) (hle : s ≤ rounded (l - 1 / 16))
    (hsl : s ≤ l) : Settled l s (max (1 / 16) (rounded (l - s))) := by
  have hpos : 0 < l := by linarith
  have hfit : s + max (1 / 16) (rounded (l - s)) ≤ l + lastPlace l / 2 := by
    rw [← max_add_add_left, max_le_iff]
    constructor
    · linarith [Binary64.add_rounded_sub_le hpos (by norm_num) hl]
    · exact Binary64.add_rounded_sub_le hpos hs hsl
  have hshort : 1 / 16 ≤ max (1 / 16) (rounded (l - s)) := le_max_left _ _
  have hend : 0 < s + max (1 / 16) (rounded (l - s)) := by linarith
  refine ⟨hs, hle, hshort, hfit, fun heven => ?_⟩
  rw [Binary64.rounded_of_nonneg hend.le]
  exact Binary64.nearest_le_of_isEven hpos heven hend hfit

theorem boundTime_settled (hl : Quantity.value? length = some l) (hlength : shortest ≤ length)
    (hstart : IsNumber start) (hd : Quantity.value? duration = some d) :
    ∃ s e, Quantity.value? (boundTime length start duration).1 = some s ∧
      Quantity.value? (boundTime length start duration).2 = some e ∧ Settled l s e := by
  have hsixteenth := sixteenth_le hl hlength
  obtain ⟨hroom, hroom0, hrooml⟩ :=
    Binary64.value?_sub_of_le hl value?_shortest (by norm_num) hsixteenth
  have hlatest := Binary64.value?_greater Binary64.value?_zero hroom
  obtain ⟨s, hs, hs0, hsle⟩ :=
    Binary64.exists_value?_clamp hstart Binary64.value?_zero hlatest (le_max_left _ _)
  rw [max_eq_right hroom0] at hsle
  have hsl : s ≤ l := hsle.trans hrooml
  have hlonger := Binary64.value?_greater value?_shortest hd
  rw [boundTime]
  split
  · have hrest := (Binary64.value?_sub_of_le hl hs hs0 hsl).1
    exact ⟨s, _, hs, Binary64.value?_greater value?_shortest hrest,
      settled_cut hsixteenth hs0 hsle hsl⟩
  · rename_i hin
    have hend : 0 ≤ s + max (1 / 16) d := by linarith [le_max_left (1 / 16) d]
    have hle := (Binary64.attains_add_of_value? hs hlonger).le_of_not_lt hl hin
    have hlate : s + max (1 / 16) d ≤ l + lastPlace l / 2 :=
      Binary64.le_of_nearest_le (by linarith) (Binary64.rounded_of_nonneg hend ▸ hle)
    exact ⟨s, _, hs, hlonger, hs0, hsle, le_max_left _ _, hlate, fun _ => hle⟩

/-- The duration is in bounds also where the onset is no number. -/
theorem boundTime_duration (hl : Quantity.value? length = some l) (hlength : shortest ≤ length)
    (hd : Quantity.value? duration = some d) : ∃ e,
      Quantity.value? (boundTime length start duration).2 = some e ∧ 1 / 16 ≤ e := by
  by_cases hstart : IsNumber start
  · obtain ⟨s, e, -, he, hsettled⟩ := boundTime_settled hl hlength hstart hd
    exact ⟨e, he, hsettled.shortest_le⟩
  · have hclamp : Quantity.clamp start 0.0 (Quantity.greater 0.0 (length - shortest)) = start :=
      Quantity.clamp_of_not_lt (fun hlt => hstart (Quantity.Lawful.isNumber_of_lt hlt).1)
        fun hlt => hstart (Quantity.Lawful.isNumber_of_lt hlt).2
    rw [boundTime, hclamp, if_neg fun hlt =>
      hstart (Binary64.isNumber_left_of_add (Quantity.Lawful.isNumber_of_lt hlt).2)]
    exact ⟨_, Binary64.value?_greater value?_shortest hd, le_max_left _ _⟩

theorem isFinite_boundTime_start (hl : Quantity.value? length = some l)
    (hlength : shortest ≤ length) (hd : Quantity.value? duration = some d) :
    Quantity.isFinite (boundTime length start duration).1 = true ↔ IsNumber start := by
  constructor
  · intro h
    rw [boundTime, apply_ite Prod.fst, ite_self] at h
    exact Conversion.isNumber_of_isFinite_clamp h
  · intro hstart
    obtain ⟨s, -, hs, -⟩ := boundTime_settled hl hlength hstart hd
    exact Option.isSome_of_eq_some hs

/-- A note within a selection of a given exact length. Its end is late by half a unit in the last
place of the length at most, and as it is computed it is not late where the mantissa of the length
is even. -/
structure FitsIn (length : Float) (l : Rat) (n : Note Float) : Prop where
  start_nonneg : 0.0 ≤ n.start
  start_le : n.start ≤ length - shortest
  finish_le : IsEven l → n.finish ≤ length
  late_le : ∃ s e, Quantity.value? n.start = some s ∧ Quantity.value? n.duration = some e ∧
    s + e ≤ l + lastPlace l / 2

theorem Settled.fitsIn {n : Note Float} {s e : Rat} (h : Settled l s e)
    (hl : Quantity.value? length = some l) (hlength : shortest ≤ length)
    (hs : Quantity.value? n.start = some s) (he : Quantity.value? n.duration = some e) :
    n.FitsIn length l where
  start_nonneg := Binary64.le_of_value? Binary64.value?_zero hs h.start_nonneg
  start_le :=
    have hroom :=
      Binary64.value?_sub_of_le hl value?_shortest (by norm_num) (sixteenth_le hl hlength)
    Binary64.le_of_value? hs hroom.1 h.start_le
  finish_le heven := by
    have hfinish := Binary64.attains_add_of_value? hs he
    have hle := h.finish_le heven
    have hend : 0 ≤ rounded (s + e) :=
      Binary64.rounded_nonneg (by linarith [h.start_nonneg, h.shortest_le])
    have hbound : |rounded (s + e)| < Binary64.limit := by
      rw [abs_of_nonneg hend]
      exact hle.trans_lt ((le_abs_self l).trans_lt (Binary64.rounded_of_value? hl).2)
    exact Binary64.le_of_value? (hfinish.value? hbound) hl hle
  late_le := ⟨s, e, hs, he, h.late_le⟩

end Note

/-! ### Hits -/

/-- What is found in a list stands for some of its elements, in their order. -/
theorem exists_sublist_filterMap {β γ : Type} (f : β → Option γ) (xs : List β) :
    ∃ kept, kept.Sublist xs ∧ List.Forall₂ (fun a b => f a = some b) kept (xs.filterMap f) := by
  induction xs with
  | nil => exact ⟨[], .slnil, .nil⟩
  | cons x xs ih =>
      obtain ⟨kept, hkept, hnotes⟩ := ih
      cases hx : f x with
      | none =>
          rw [List.filterMap_cons_none hx]
          exact ⟨kept, hkept.cons x, hnotes⟩
      | some y =>
          rw [List.filterMap_cons_some hx]
          exact ⟨x :: kept, hkept.cons_cons x, .cons hx hnotes⟩

namespace Hit

variable {described : Value Float} {i : Instrument Float} {m : Meter} {length : Float} {l : Rat}
  {raw : Value Float} {n : Note Float}

/-- What sounds when an instrument plays a hit. -/
structure Sounds (i : Instrument Float) (m : Meter) (length : Float) (l : Rat) (raw : Value Float)
    (n : Note Float) : Prop where
  pitch : ∃ name, drumName? raw = some name ∧ i.drums.find? (Text.lower name) = some n.pitch
  velocity : Midi.IsVelocity n.velocity
  channel : Midi.IsChannel n.channel
  isFinite_duration : Quantity.isFinite n.duration = true
  shortest_le : Note.shortest ≤ n.duration
  onset : ∃ onset, Position.onset? m raw = some onset ∧
    (Quantity.isFinite n.start = true ↔ IsNumber onset)
  fitsIn : Quantity.isFinite n.start = true → n.FitsIn length l

theorem isFinite_of_values? {start duration : Float} {velocity : Int}
    (h : values? m raw = some (start, duration, velocity)) : Quantity.isFinite duration = true := by
  obtain ⟨_, -, h⟩ := Option.bind_eq_some_iff.mp h
  obtain ⟨_, -, h⟩ := Option.bind_eq_some_iff.mp h
  obtain ⟨_, -, h⟩ := Option.bind_eq_some_iff.mp h
  obtain ⟨hfinite, h⟩ | ⟨-, h⟩ := ite_eq_iff.mp h
  · cases h
    exact hfinite
  · exact nomatch h

theorem sounds_of_note? (hi : Instrument.read? described = some i)
    (hl : Quantity.value? length = some l) (hlength : Note.shortest ≤ length)
    (h : (read length m i raw).note? = some n) : Sounds i m length l raw n := by
  obtain ⟨name, pitch, start, duration, velocity, hname, hpitch, hvalues, rfl⟩ := exists_of_note? h
  have htuned := Instrument.read?_tuned hi
  obtain ⟨d, hd⟩ := Option.isSome_iff_exists.mp (isFinite_of_values? hvalues)
  obtain ⟨e, he, hle⟩ := Note.boundTime_duration hl hlength hd
  have hclamped : Midi.clampData pitch = pitch := by
    obtain ⟨entry, hentry, rfl⟩ := Table.exists_mem_of_find? hpitch
    obtain ⟨hlow, hhigh⟩ := Instrument.read?_drums hi entry hentry
    rw [Midi.clampData, Midi.clamp_eq _ (by decide)]
    omega
  have hfinite : Quantity.isFinite (Note.boundTime length start duration).1 = true ↔
      IsNumber start := Note.isFinite_boundTime_start hl hlength hd
  refine ⟨⟨name, hname, ?_⟩, Midi.isVelocity_clampVelocity _,
    Midi.isChannel_channelOr htuned.channel _, Option.isSome_of_eq_some he,
    Binary64.le_of_value? Note.value?_shortest he hle,
    ⟨start, onset_of_values? hvalues, hfinite⟩, fun hstart => ?_⟩
  · rw [hpitch, hclamped]
  · obtain ⟨s, e, hs, he, hsettled⟩ :=
      Note.boundTime_settled hl hlength (hfinite.mp hstart) hd
    exact hsettled.fitsIn hl hlength hs he

/-- Every entry of a list of hits is dropped, unknown or sounds, and those that sound keep their
order. An onset that is a number is within the selection, and so is the end up to rounding. -/
theorem takeIn_sounds (hi : Instrument.read? described = some i)
    (hl : Quantity.value? length = some l) (hlength : Note.shortest ≤ length) (m : Meter)
    (raws : List (Value Float)) :
    let taken := takeIn length m i raws
    taken.report.input = raws.length ∧
      taken.report.input =
        taken.report.dropped + taken.report.unknownDrums + taken.notes.length ∧
      ∃ kept, kept.Sublist raws ∧ List.Forall₂ (Sounds i m length l) kept taken.notes := by
  refine ⟨takeIn_input length m i raws, ?_, ?_⟩
  · have hcounts := length_notes_add_counts (raws.map (read length m i))
    rw [List.length_map] at hcounts
    rw [takeIn, if_pos hlength]
    dsimp only
    omega
  · obtain ⟨kept, hkept, hnotes⟩ :=
      exists_sublist_filterMap (fun raw => (read length m i raw).note?) raws
    refine ⟨kept, hkept, ?_⟩
    rw [takeIn_notes, if_pos hlength]
    exact hnotes.imp fun _ _ => sounds_of_note? hi hl hlength

/-- A kick that is cut to the selection, an unknown drum and what is no hit at all. -/
def kicks : List (Value Float) :=
  [.object [("drum", .string "KICK"), ("start_q", .number 3.5), ("dur_q", .number 2)],
    .object [("drum", .string "gong")], .null]

theorem kicks_sounds :
    Instrument.read? tapKit = some kitPlayer ∧ Quantity.value? (4.0 : Float) = some 4 ∧
      Note.shortest ≤ (4.0 : Float) ∧
      let taken := takeIn 4.0 fourBeats.meter kitPlayer kicks
      taken.report.input = kicks.length ∧
        taken.report.input =
          taken.report.dropped + taken.report.unknownDrums + taken.notes.length ∧
        ∃ kept, kept.Sublist kicks ∧
          List.Forall₂ (Sounds kitPlayer fourBeats.meter 4.0 4) kept taken.notes := by
  have hplayer : Instrument.read? tapKit = some kitPlayer := (Option.some_get _).symm
  have hvalue : Quantity.value? (4.0 : Float) = some 4 := by decide +kernel
  have hshort : Note.shortest ≤ (4.0 : Float) := by decide +kernel
  exact ⟨hplayer, hvalue, hshort, takeIn_sounds hplayer hvalue hshort _ _⟩

example : (takeIn 4.0 fourBeats.meter kitPlayer kicks).report =
    { input := 3, dropped := 1, unknownDrums := 1 } := by decide +kernel

end Hit

end MusicPart
