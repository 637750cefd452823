import MusicPart.Proofs.Instruments
import MusicPart.Proofs.Splitting

/-!
# Breaths

A note that outlasts a breath becomes pieces that begin a breath apart and cover it to its end. The
last of them takes what is left, which is little more than a breath unless the number of pieces is
at its bound: a tail that would be too short, and the slack of the division.
-/

namespace MusicPart.Note

open Instrument (Lasts)

/-- The pieces of a note between breaths. Counts are held within a million, which is no less than the
number of pieces that an instrument can ask for. -/
structure InBreaths (s : Stamina Rat) (n : Note Rat) (pieces : List (Note Rat)) : Prop where
  length_pos : 1 ≤ pieces.length
  length_le : (pieces.length : Int) ≤ s.maxPieces
  eq {i : Nat} {p : Note Rat} : pieces[i]? = some p →
    p = { n with start := n.start + i * s.breath, duration := p.duration }
  shortest_le {p : Note Rat} : p ∈ pieces → shortest ≤ p.duration
  inner {i : Nat} {p q : Note Rat} : pieces[i]? = some p → pieces[i + 1]? = some q →
    p.finish ≤ q.start ∧ p.duration ≤ s.breath
  last {p : Note Rat} : pieces.getLast? = some p → p.finish = n.finish
  last_le {p : Note Rat} : pieces.getLast? = some p →
    p.duration ≤ s.breath + shortest + slack * s.breath ∨
      (pieces.length : Int) = min s.maxPieces 1000000

variable {segment : Rat} {maxPieces : Int} {n : Note Rat}

/-- What the last piece is left with is within its bound, or there are as many pieces as there can
be. -/
theorem tail_le (hs : shortest ≤ segment) (hm : 1 ≤ maxPieces) :
    n.duration - ((splitCount segment maxPieces n : Rat) - 1) * segment ≤
        segment + shortest + slack * segment ∨
      (splitCount segment maxPieces n : Int) = min maxPieces 1000000 := by
  have hpos : 0 < segment := lt_of_lt_of_le (by norm_num) hs
  have hslack : 0 < slack * segment := mul_pos (by norm_num) hpos
  rw [splitCount]
  split
  · next hwhole =>
      left
      have hle := hwhole.resolve_left hpos.not_ge
      simp only [shortest_eq, slack_eq, Nat.cast_one] at *
      linarith
  · have hcount := (pieceCount_mem maxPieces segment n).1
    rw [natCast_pieceCount, Int.toNat_of_nonneg (by omega), pieceCount_eq]
    split
    · -- A tail that is too short makes the piece before it the last one.
      next hshort =>
        left
        push_cast
        linarith [hshort.2]
    · by_cases hbound : fullCount segment maxPieces n < min (max 1 maxPieces) 1000000
      · left
        have hcovered := duration_le_fullCount_mul maxPieces hpos hbound
        simp only [shortest_eq] at *
        linarith
      · right
        rw [fullCount_eq] at hbound ⊢
        omega

theorem getElem?_split {gap : Rat} (hd : shortest ≤ n.duration) {i : Nat} {p : Note Rat} :
    (split segment gap maxPieces n)[i]? = some p ↔ i < splitCount segment maxPieces n ∧
      p = piece segment gap (splitCount segment maxPieces n) n i := by
  rw [split_eq_map maxPieces segment gap hd, List.getElem?_map, Option.map_eq_some_iff]
  constructor
  · rintro ⟨j, hj, rfl⟩
    obtain ⟨hi, rfl⟩ := List.getElem?_eq_some_iff.mp hj
    rw [List.length_range] at hi
    rw [List.getElem_range]
    exact ⟨hi, rfl⟩
  · rintro ⟨hi, rfl⟩
    exact ⟨i, List.getElem?_range hi, rfl⟩

theorem length_split {gap : Rat} (hd : shortest ≤ n.duration) :
    (split segment gap maxPieces n).length = splitCount segment maxPieces n := by
  rw [split_eq_map maxPieces segment gap hd, List.length_map, List.length_range]

theorem getLast?_split {gap : Rat} (hd : shortest ≤ n.duration) {p : Note Rat}
    (h : (split segment gap maxPieces n).getLast? = some p) : ∃ i : Nat,
      i + 1 = splitCount segment maxPieces n ∧
        p = piece segment gap (splitCount segment maxPieces n) n i := by
  rw [List.getLast?_eq_getElem?, length_split hd, getElem?_split hd] at h
  exact ⟨splitCount segment maxPieces n - 1, by omega, h.2⟩

variable {s : Stamina Rat}

theorem inBreaths_split (hbreath : shortest ≤ s.breath) (hgap : 0 ≤ s.breathGap)
    (hpieces : 1 ≤ s.maxPieces) (hd : shortest ≤ n.duration) :
    InBreaths s n (split s.breath s.breathGap s.maxPieces n) := by
  have hlong : NotShort s.breath := Or.inr hbreath
  constructor
  case length_pos => exact (length_split hd).symm ▸ splitCount_pos s.maxPieces s.breath n
  case length_le =>
    rw [length_split hd, splitCount]
    have hmem := pieceCount_mem s.maxPieces s.breath n
    split <;> omega
  case eq =>
    intro i p hp
    obtain ⟨-, rfl⟩ := (getElem?_split hd).mp hp
    rfl
  case shortest_le => exact fun hp => (split_begins s.maxPieces hd hp).2.2
  case inner =>
    intro i p q hp hq
    obtain ⟨-, rfl⟩ := (getElem?_split hd).mp hp
    obtain ⟨hi, rfl⟩ := (getElem?_split hd).mp hq
    constructor
    · rw [piece_start]
      push_cast
      exact hlong.inner_piece s.maxPieces hgap hi
    · rw [piece_duration, if_pos (by omega)]
      exact max_le hbreath (sub_le_self _ hgap)
  case last =>
    intro p hp
    obtain ⟨i, hi, rfl⟩ := getLast?_split hd hp
    exact hlong.last_piece s.maxPieces hd hi
  case last_le =>
    intro p hp
    obtain ⟨i, hi, rfl⟩ := getLast?_split hd hp
    rw [length_split hd, piece_duration, if_neg (by omega)]
    refine (tail_le hbreath hpieces).imp_left fun htail => max_le ?_ ?_
    · simp only [shortest_eq, slack_eq] at *
      linarith
    · have hcount : ((i : Int) : Rat) = (splitCount s.breath s.maxPieces n : Rat) - 1 := by
        rw [← hi]
        push_cast
        ring
      rwa [hcount]

/-- A tone of one breath, and one of two breaths whose tail is too short for a third piece. -/
def longTones : List (Note Rat) := [⟨0, 4, 60, 80, 1, []⟩, ⟨4, 257 / 32, 62, 80, 1, []⟩]

end MusicPart.Note
