import MusicPart.Proofs.Breaths
import MusicPart.Proofs.Meters
import MusicPart.Proofs.Phrases

/-!
# Bows

The strokes of a note fill its span one after the other where a bow lasts at least as long as the
shortest note. Nothing keeps a bow that long: it is a part of a bar, and both can be as small as
they like. The strokes of a note that is split by a shorter bow overlap from the first one on.
-/

namespace MusicPart

/-! ### The length of a bow -/

/-- Both parts of a meter that was read are above zero. -/
theorem Meter.pos_of_read? {t : Text} {m : Meter} (h : Meter.read? t = some m) :
    0 < m.beats ∧ 0 < m.unit := by
  obtain ⟨hbeats, hunit⟩ := bounds_of_read? h
  exact ⟨by omega, by omega⟩

theorem Meter.barLength_pos {m : Meter} (h : 0 < m.beats ∧ 0 < m.unit) :
    (0 : Rat) < m.barLength := by
  have hbeats : (0 : Rat) < m.beats := Int.cast_pos.mpr h.1
  have hunit : (0 : Rat) < m.unit := Int.cast_pos.mpr h.2
  change (0 : Rat) < m.beats * (4.0 / m.unit)
  exact mul_pos hbeats (div_pos (by norm_num) hunit)

/-- An instrument has a bow, and no gap between two strokes is below zero. -/
theorem Instrument.bow_of_read? {raw : Json.Value Rat} {i : Instrument Rat}
    (h : Instrument.read? raw = some i) : 0 < i.stamina.bowBars ∧ 0 ≤ i.stamina.bowGap := by
  rcases Instrument.read?_stamina h with hplain | ⟨v, hv⟩
  · rw [hplain]
    exact ⟨show (0 : Rat) < 1.0 by norm_num, show (0 : Rat) ≤ 0.0 by norm_num⟩
  · rw [hv]
    refine ⟨?_, Exact.zero_eq.ge.trans (Instrument.atLeast_le 0.0 _)⟩
    rw [Instrument.readStamina]
    dsimp only
    split
    · norm_num
    · rename_i hbars
      rwa [Exact.zero_eq, not_le] at hbars

namespace Note

/-- A bow lasts at most a bar. -/
def bowLength (s : Stamina Rat) (m : Meter) : Rat := min 1 s.bowBars * m.barLength

theorem bowLength_pos {s : Stamina Rat} {m : Meter} (hbow : 0 < s.bowBars)
    (hm : 0 < m.beats ∧ 0 < m.unit) : 0 < bowLength s m :=
  mul_pos (lt_min one_pos hbow) (Meter.barLength_pos hm)

/-- The strokes of one note. -/
def strokes (s : Stamina Rat) (m : Meter) (n : Note Rat) : List (Note Rat) :=
  split (bowLength s m) s.bowGap s.maxPieces n

theorem splitBows_eq {s : Stamina Rat} (hbow : 0 < s.bowBars) (hgap : 0 ≤ s.bowGap) (m : Meter)
    (notes : List (Note Rat)) : splitBows s m notes =
      ⟨sortByPitch (notes.flatMap (strokes s m)),
        { bows := notes.countP fun n => 1 < (strokes s m n).length }⟩ := by
  have hbars : ¬min 1 s.bowBars ≤ 0 := (lt_min one_pos hbow).not_ge
  rw [splitBows]
  simp only [Exact.zero_eq, Exact.one_eq, Exact.lesser_eq_min, Exact.greater_eq_max,
    max_eq_right hgap, if_neg hbars, List.countP_map]
  rfl

/-! ### Strokes -/

/-- The strokes of a note fill its span one after the other. -/
structure InStrokes (n : Note Rat) (strokes : List (Note Rat)) : Prop where
  within {p : Note Rat} : p ∈ strokes → n.start ≤ p.start ∧ p.finish ≤ n.finish
  first : strokes.head?.map (·.start) = some n.start
  last : strokes.getLast?.map (·.finish) = some n.finish
  apart : strokes.IsChain fun p q => p.finish ≤ q.start
  shortest_le {p : Note Rat} : p ∈ strokes → shortest ≤ p.duration

variable {segment gap : Rat} {maxPieces : Int} {n : Note Rat}

theorem inStrokes_singleton (hd : shortest ≤ n.duration) : InStrokes n [n] where
  within hp := by
    rw [List.mem_singleton.mp hp]
    exact ⟨le_rfl, le_rfl⟩
  first := rfl
  last := rfl
  apart := .singleton n
  shortest_le hp := List.mem_singleton.mp hp ▸ hd

theorem getElem?_split_of_lt (hd : shortest ≤ n.duration) {k : Nat}
    (hk : k < splitCount segment maxPieces n) : (split segment gap maxPieces n)[k]? =
      some (piece segment gap (splitCount segment maxPieces n) n k) :=
  (getElem?_split hd).mpr ⟨hk, rfl⟩

theorem head?_split (hd : shortest ≤ n.duration) :
    (split segment gap maxPieces n).head?.map (·.start) = some n.start := by
  rw [List.head?_eq_getElem?, getElem?_split_of_lt hd (splitCount_pos maxPieces segment n),
    Option.map_some, piece_start]
  simp

/-- Strokes that are no shorter than the shortest note fill the note. -/
theorem inStrokes_split (hs : shortest ≤ segment) (hgap : 0 ≤ gap) (hd : shortest ≤ n.duration) :
    InStrokes n (split segment gap maxPieces n) := by
  have hlong : NotShort segment := Or.inr hs
  constructor
  case within =>
    exact fun hp => ⟨(split_begins maxPieces hd hp).1, hlong.split_finish_le maxPieces hgap hd hp⟩
  case first => exact head?_split hd
  case last =>
    obtain ⟨p, hp⟩ : ∃ p, (split segment gap maxPieces n).getLast? = some p := by
      rw [← Option.isSome_iff_exists, List.getLast?_isSome, ← List.length_pos_iff, length_split hd]
      exact splitCount_pos maxPieces segment n
    obtain ⟨i, hi, heq⟩ := getLast?_split hd hp
    rw [hp, heq, Option.map_some, hlong.last_piece maxPieces hd hi]
  case apart => exact (hlong.split_pairwise maxPieces hgap hd).isChain.imp fun _ _ h => h.2
  case shortest_le => exact fun hp => (split_begins maxPieces hd hp).2.2

/-- Where a bow is shorter than the shortest note, the first stroke lasts into the second one. -/
theorem not_inStrokes_split (hs : segment < shortest) (hd : shortest ≤ n.duration)
    (h : 2 ≤ splitCount segment maxPieces n) : ¬InStrokes n (split segment gap maxPieces n) := by
  intro hstrokes
  have hfirst : (split segment gap maxPieces n)[0]? = some _ :=
    getElem?_split_of_lt hd (by omega)
  have hsecond : (split segment gap maxPieces n)[1]? = some _ :=
    getElem?_split_of_lt hd (by omega)
  obtain ⟨hlength, hsecond'⟩ := List.getElem?_eq_some_iff.mp hsecond
  obtain ⟨_, hfirst'⟩ := List.getElem?_eq_some_iff.mp hfirst
  have hover := List.isChain_iff_getElem.mp hstrokes.apart 0 hlength
  have hlasts := hstrokes.shortest_le (List.mem_of_getElem? hfirst)
  rw [hfirst', hsecond', finish_eq, piece_start, piece_start] at hover
  push_cast at hover hlasts
  linarith

/-! ### Notes that stay whole -/

/-- A note that outlasts its bow is one stroke all the same if no more are asked for, or if the
second one would be shorter than the shortest note and there is no third. -/
def StaysWhole (segment : Rat) (maxPieces : Int) (n : Note Rat) : Prop :=
  maxPieces = 1 ∨ n.duration < segment + shortest ∧
    (maxPieces = 2 ∨ n.duration ≤ (2 + slack) * segment)

theorem pieceCount_eq_one_iff : pieceCount segment maxPieces n = 1 ↔
    fullCount segment maxPieces n = 1 ∨
      fullCount segment maxPieces n = 2 ∧ n.duration < segment + shortest := by
  have hpos := (fullCount_mem maxPieces segment n).1
  have htail (h : fullCount segment maxPieces n = 2) :
      n.duration - ((fullCount segment maxPieces n : Rat) - 1) * segment < shortest ↔
        n.duration < segment + shortest := by
    rw [h, sub_lt_iff_lt_add']
    norm_num
  rw [pieceCount_eq]
  split
  · rename_i hshort
    constructor
    · intro hone
      have htwo : fullCount segment maxPieces n = 2 := by omega
      exact Or.inr ⟨htwo, (htail htwo).mp hshort.2⟩
    · rintro (hone | ⟨htwo, -⟩) <;> omega
  · rename_i hlong
    refine ⟨Or.inl, ?_⟩
    rintro (hone | ⟨htwo, htail'⟩)
    · exact hone
    · exact absurd ⟨by omega, (htail htwo).mpr htail'⟩ hlong

theorem splitCount_eq_one_iff (hpos : 0 < segment) (hs : segment < shortest) (hm : 1 ≤ maxPieces)
    (hd : shortest ≤ n.duration) :
    splitCount segment maxPieces n = 1 ↔ StaysWhole segment maxPieces n := by
  have hslack : slack * segment ≤ slack := by
    simp only [shortest_eq, slack_eq] at *
    linarith
  rw [splitCount, StaysWhole]
  split
  · next hwhole =>
      have hle := hwhole.resolve_left hpos.not_ge
      simp only [shortest_eq, slack_eq] at *
      exact iff_of_true trivial (Or.inr ⟨by linarith, Or.inr (by linarith)⟩)
  · next hsplit =>
      rw [not_or, not_le, not_le] at hsplit
      have htwo : 1 < ⌈n.duration / segment - slack⌉ := by
        rw [Int.lt_ceil, Int.cast_one, lt_sub_iff_add_lt, lt_div_iff₀ hpos]
        linarith
      have hceil : ⌈n.duration / segment - slack⌉ ≤ 2 ↔ n.duration ≤ (2 + slack) * segment := by
        rw [Int.ceil_le, Int.cast_ofNat, sub_le_iff_le_add, div_le_iff₀ hpos]
      have hcount := (pieceCount_mem maxPieces segment n).1
      rw [show (pieceCount segment maxPieces n).toNat = 1 ↔ pieceCount segment maxPieces n = 1 by
        omega, pieceCount_eq_one_iff, fullCount_eq, ← hceil]
      by_cases htail : n.duration < segment + shortest
      · simp only [htail, and_true, true_and]
        omega
      · simp only [htail, and_false, false_and, or_false]
        omega

/-- The strokes of a note fill its span exactly if its bow is no shorter than the shortest note or
the note stays whole. -/
theorem inStrokes_split_iff (hpos : 0 < segment) (hgap : 0 ≤ gap) (hm : 1 ≤ maxPieces)
    (hd : shortest ≤ n.duration) : InStrokes n (split segment gap maxPieces n) ↔
      shortest ≤ segment ∨ StaysWhole segment maxPieces n := by
  rcases le_or_gt shortest segment with hs | hs
  · exact iff_of_true (inStrokes_split hs hgap hd) (Or.inl hs)
  · rw [or_iff_right hs.not_ge, ← splitCount_eq_one_iff hpos hs hm hd]
    have hcount := splitCount_pos maxPieces segment n
    constructor
    · intro hstrokes
      by_contra hne
      exact not_inStrokes_split hs hd (by omega) hstrokes
    · intro hone
      rw [split_of_count_one maxPieces segment gap hd hone]
      exact inStrokes_singleton hd

/-- Whatever an instrument says of its bow, in every meter each note becomes its strokes, which
begin within the note and with it, and the bows are the notes of more than one stroke. The strokes
fill the span of the note exactly if the bow is no shorter than the shortest note or the note stays
whole. -/
theorem splitBows_inStrokes_iff {raw : Json.Value Rat} {i : Instrument Rat}
    (hi : Instrument.read? raw = some i) {t : Text} {m : Meter} (hm : Meter.read? t = some m)
    {notes : List (Note Rat)} (hd : ∀ n ∈ notes, shortest ≤ n.duration) :
    splitBows i.stamina m notes = ⟨sortByPitch (notes.flatMap (strokes i.stamina m)),
      { bows := notes.countP fun n => 1 < (strokes i.stamina m n).length }⟩ ∧
    ∀ n ∈ notes,
      (strokes i.stamina m n).head?.map (·.start) = some n.start ∧
      (∀ p ∈ strokes i.stamina m n,
        n.start ≤ p.start ∧ p.start < n.finish ∧ shortest ≤ p.duration) ∧
      (InStrokes n (strokes i.stamina m n) ↔ shortest ≤ bowLength i.stamina m ∨
        StaysWhole (bowLength i.stamina m) i.stamina.maxPieces n) := by
  obtain ⟨hbow, hgap⟩ := Instrument.bow_of_read? hi
  have hpos := bowLength_pos hbow (Meter.pos_of_read? hm)
  have hpieces := (Instrument.read?_lasts hi).maxPieces.1
  refine ⟨splitBows_eq hbow hgap m notes, fun n hn => ⟨head?_split (hd n hn), fun p hp => ?_, ?_⟩⟩
  · exact split_begins i.stamina.maxPieces (hd n hn) hp
  · exact inStrokes_split_iff hpos hgap hpieces (hd n hn)

/-- A player whose bow lasts a bar. -/
def barBowing : Instrument Rat := (Instrument.read? (.object [])).get (by decide)

/-- In bars of half the shortest note, a tone of two bars and one of four. -/
def swiftTones : List (Note Rat) := [⟨0, 1 / 16, 60, 80, 1, []⟩, ⟨1, 1 / 8, 62, 80, 1, []⟩]

theorem swiftTones_inStrokes : Instrument.read? (.object []) = some barBowing ∧
    Meter.read? "1/128" = some ⟨1, 128⟩ ∧ (∀ n ∈ swiftTones, shortest ≤ n.duration) ∧
    swiftTones.map (fun n => (strokes barBowing.stamina ⟨1, 128⟩ n).length) = [1, 3] ∧
    InStrokes ⟨0, 1 / 16, 60, 80, 1, []⟩
      (strokes barBowing.stamina ⟨1, 128⟩ ⟨0, 1 / 16, 60, 80, 1, []⟩) ∧
    ¬InStrokes ⟨1, 1 / 8, 62, 80, 1, []⟩
      (strokes barBowing.stamina ⟨1, 128⟩ ⟨1, 1 / 8, 62, 80, 1, []⟩) := by
  have hread : Instrument.read? (.object []) = some barBowing := (Option.some_get _).symm
  have hmeter : Meter.read? "1/128" = some ⟨1, 128⟩ := by decide
  have hshortest : ∀ n ∈ swiftTones, shortest ≤ n.duration := by
    simp [swiftTones]
    norm_num
  have hbow : bowLength barBowing.stamina ⟨1, 128⟩ = 1 / 32 := by decide +kernel
  have hpieces : barBowing.stamina.maxPieces = 64 := by decide
  have hstrokes := (splitBows_inStrokes_iff hread hmeter hshortest).2
  refine ⟨hread, hmeter, hshortest, by decide +kernel, ?_, ?_⟩
  · refine (hstrokes _ (by simp [swiftTones])).2.2.mpr (Or.inr (Or.inr ⟨?_, Or.inr ?_⟩))
    · rw [hbow, shortest_eq]
      norm_num
    · rw [hbow, slack_eq]
      norm_num
  · rw [(hstrokes _ (by simp [swiftTones])).2.2, hbow, hpieces, StaysWhole, shortest_eq]
    norm_num

end Note

end MusicPart
