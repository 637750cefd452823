import MusicPart.Proofs.Bounds
import MusicPart.Proofs.Shortening

/-!
# Breaths and bows

A note is split into pieces that start a breath or a bow apart. As long as that is not below the
shortest note, the pieces lie one after the other within the note.
-/

namespace MusicPart.Note

theorem capped?_shortens {a : Articulations Rat} {general : Text} {n m : Note Rat}
    (h : capped? a general n = some m) : Shortens n m := by
  obtain ⟨hshort, hm⟩ := Option.ite_none_right_eq_some.mp h
  cases hm
  simp only [Exact.greater_eq_max, Bool.and_eq_true, decide_eq_true_eq] at hshort ⊢
  exact .of_duration (Or.inr ⟨le_max_left _ _, hshort.2⟩)

theorem capShort_trims (a : Articulations Rat) (general : Text) (notes : List (Note Rat)) :
    Trims notes (capShort a general notes).notes := by
  refine .shorten ?_
  rw [capShort, List.forall₂_map_right_iff, List.forall₂_same]
  intro n _
  cases h : capped? a general n with
  | none => exact .refl n
  | some m => exact capped?_shortens h

/-! ### The number of pieces -/

variable {segment : Rat} (maxPieces : Int) {n : Note Rat}

/-- The number of pieces before a short tail is left to the piece in front of it. -/
def fullCount (segment : Rat) (maxPieces : Int) (n : Note Rat) : Int :=
  Midi.clamp (Json.Value.saturate (Quantity.ceil (n.duration / segment - slack))) 1 (max 1 maxPieces)

theorem fullCount_eq (segment : Rat) (n : Note Rat) : fullCount segment maxPieces n =
    max 1 (min ⌈n.duration / segment - slack⌉ (min (max 1 maxPieces) 1000000)) := by
  rw [fullCount, Midi.clamp_eq _ (le_max_left _ _), Exact.ceil_eq, Exact.saturate_intCast]
  omega

theorem fullCount_mem (segment : Rat) (n : Note Rat) :
    1 ≤ fullCount segment maxPieces n ∧ fullCount segment maxPieces n ≤ max 1 maxPieces :=
  Midi.clamp_mem _ (le_max_left _ _)

theorem fullCount_pred_mul_lt (hs : 0 < segment) (hd : 0 < n.duration) :
    ((fullCount segment maxPieces n : Rat) - 1) * segment < n.duration := by
  have hmem : 1 ≤ fullCount segment maxPieces n :=
    (fullCount_mem maxPieces segment n).1
  rcases hmem.eq_or_lt with h | h
  · rw [← h]
    simpa using hd
  · have hle : fullCount segment maxPieces n ≤ ⌈n.duration / segment - slack⌉ := by
      rw [fullCount_eq] at h ⊢
      omega
    have hlt : ((fullCount segment maxPieces n - 1 : Int) : Rat) < n.duration / segment - slack :=
      Int.lt_ceil.mp (by omega)
    have hdiv : (fullCount segment maxPieces n : Rat) - 1 < n.duration / segment := by
      push_cast at hlt
      simp only [slack_eq] at hlt
      linarith
    exact (lt_div_iff₀ hs).mp hdiv

/-- Below its bounds the number of pieces leaves no more than the slack uncovered. -/
theorem duration_le_fullCount_mul (hs : 0 < segment)
    (h : fullCount segment maxPieces n < min (max 1 maxPieces) 1000000) :
    n.duration ≤ (fullCount segment maxPieces n + slack) * segment := by
  have hceil : ⌈n.duration / segment - slack⌉ ≤ fullCount segment maxPieces n := by
    rw [fullCount_eq] at h ⊢
    omega
  have hdiv : n.duration / segment - slack ≤ fullCount segment maxPieces n := Int.ceil_le.mp hceil
  exact (div_le_iff₀ hs).mp (sub_le_iff_le_add.mp hdiv)

theorem fullCount_mono {m : Note Rat} (hs : 0 < segment) (h : n.duration ≤ m.duration) :
    fullCount segment maxPieces n ≤ fullCount segment maxPieces m := by
  have hceil : ⌈n.duration / segment - slack⌉ ≤ ⌈m.duration / segment - slack⌉ :=
    Int.ceil_le_ceil (sub_le_sub_right ((div_le_div_iff_of_pos_right hs).mpr h) _)
  rw [fullCount_eq, fullCount_eq]
  omega

theorem pieceCount_eq (segment : Rat) (n : Note Rat) : pieceCount segment maxPieces n =
    if 1 < fullCount segment maxPieces n ∧
        n.duration - ((fullCount segment maxPieces n : Rat) - 1) * segment < shortest then
      fullCount segment maxPieces n - 1
    else fullCount segment maxPieces n := by
  have hcast : ((fullCount segment maxPieces n - 1 : Int) : Rat) =
      (fullCount segment maxPieces n : Rat) - 1 := by push_cast; rfl
  rw [← hcast]
  rw [pieceCount]
  simp only [Bool.and_eq_true, decide_eq_true_eq]
  rfl

theorem pieceCount_mem (segment : Rat) (n : Note Rat) :
    1 ≤ pieceCount segment maxPieces n ∧ pieceCount segment maxPieces n ≤ max 1 maxPieces := by
  have h := fullCount_mem maxPieces segment n
  rw [pieceCount_eq]
  split <;> omega

theorem pieceCount_mono {m : Note Rat} (hs : 0 < segment) (h : n.duration ≤ m.duration) :
    pieceCount segment maxPieces n ≤ pieceCount segment maxPieces m := by
  have hfull := fullCount_mono maxPieces hs h
  rcases hfull.eq_or_lt with heq | hlt
  · rw [pieceCount_eq, pieceCount_eq, ← heq]
    split
    · split <;> omega
    · rename_i hlong
      rw [if_neg (fun hshort => hlong ⟨hshort.1, (sub_le_sub_right h _).trans_lt hshort.2⟩)]
  · rw [pieceCount_eq, pieceCount_eq]
    split <;> split <;> omega

/-- What is left for the last piece is at least the shortest note, or a whole piece and more. -/
theorem pieceCount_tail (hs : 0 < segment) (hd : 0 < n.duration)
    (h : 2 ≤ pieceCount segment maxPieces n) :
    shortest ≤ n.duration - ((pieceCount segment maxPieces n : Rat) - 1) * segment ∨
      segment < n.duration - ((pieceCount segment maxPieces n : Rat) - 1) * segment := by
  have hlt := fullCount_pred_mul_lt maxPieces hs hd
  rw [pieceCount_eq] at h ⊢
  split
  · right
    push_cast
    linarith
  · rename_i hlong
    rw [if_neg hlong] at h
    left
    exact not_lt.mp fun hshort => hlong ⟨by omega, hshort⟩

theorem natCast_pieceCount (segment : Rat) (n : Note Rat) :
    (((pieceCount segment maxPieces n).toNat : Nat) : Rat) =
      (pieceCount segment maxPieces n : Rat) := by
  have hpos : 1 ≤ pieceCount segment maxPieces n := (pieceCount_mem maxPieces segment n).1
  rw [← Int.cast_natCast, Int.toNat_of_nonneg (by omega)]

/-- The number of notes that a note becomes. -/
def splitCount (segment : Rat) (maxPieces : Int) (n : Note Rat) : Nat :=
  if segment ≤ 0 ∨ n.duration ≤ segment + slack then 1
  else (pieceCount segment maxPieces n).toNat

theorem splitCount_pos (segment : Rat) (n : Note Rat) : 1 ≤ splitCount segment maxPieces n := by
  have h := (pieceCount_mem maxPieces segment n).1
  rw [splitCount]
  split <;> omega

theorem splitCount_mono {m : Note Rat} (h : n.duration ≤ m.duration) :
    splitCount segment maxPieces n ≤ splitCount segment maxPieces m := by
  have hpos : 1 ≤ splitCount segment maxPieces m := splitCount_pos maxPieces segment m
  unfold splitCount at hpos ⊢
  split
  · exact hpos
  · rename_i hn
    rw [not_or, not_le, not_le] at hn
    rw [if_neg (not_or.mpr ⟨hn.1.not_ge, (hn.2.trans_le h).not_ge⟩)]
    exact Int.toNat_le_toNat (pieceCount_mono maxPieces hn.1 h)

/-- A note that is split outlasts a segment, and what is left for the last piece is at least the
shortest note or more than a segment. -/
structure Divided (segment : Rat) (count : Nat) (n : Note Rat) : Prop where
  segment_pos : 0 < segment
  segment_lt : segment < n.duration
  tail : shortest ≤ n.duration - ((count : Rat) - 1) * segment ∨
    segment < n.duration - ((count : Rat) - 1) * segment

theorem divided (segment : Rat) (n : Note Rat) (h : 2 ≤ splitCount segment maxPieces n) :
    Divided segment (splitCount segment maxPieces n) n := by
  rw [splitCount] at h ⊢
  split
  · rename_i hone
    rw [if_pos hone] at h
    omega
  · rename_i hn
    rw [if_neg hn] at h
    rw [not_or, not_le, not_le] at hn
    simp only [slack_eq] at hn
    refine ⟨hn.1, by linarith, ?_⟩
    rw [natCast_pieceCount]
    exact pieceCount_tail maxPieces hn.1 (by linarith) (by omega)

/-! ### The pieces -/

variable {gap : Rat}

theorem piece_start (segment gap : Rat) (count i : Int) (n : Note Rat) :
    (piece segment gap count n i).start = n.start + i * segment := rfl

theorem piece_duration (segment gap : Rat) (count i : Int) (n : Note Rat) :
    (piece segment gap count n i).duration = max shortest
      (if i + 1 < count then segment - gap else n.duration - i * segment) := by
  have htail : n.finish - (n.start + Quantity.ofInt i * segment) = n.duration - i * segment := by
    rw [finish_eq, Exact.ofInt_eq]
    ring
  rw [← htail]
  exact Exact.greater_eq_max _ _

theorem piece_one (segment gap : Rat) (hd : shortest ≤ n.duration) :
    piece segment gap 1 n 0 = n := by
  have hstart := piece_start segment gap 1 0 n
  have hduration := piece_duration segment gap 1 0 n
  simp only [Int.cast_zero, zero_mul, add_zero] at hstart
  rw [if_neg (by omega), Int.cast_zero, zero_mul, sub_zero, max_eq_right hd] at hduration
  calc piece segment gap 1 n 0
      = { n with
          start := (piece segment gap 1 n 0).start
          duration := (piece segment gap 1 n 0).duration } := rfl
    _ = n := by rw [hstart, hduration]

theorem split_eq_map (segment gap : Rat) (hd : shortest ≤ n.duration) :
    split segment gap maxPieces n = (List.range (splitCount segment maxPieces n)).map
      fun (i : Nat) => piece segment gap (splitCount segment maxPieces n) n i := by
  have hone : [n] = (List.range 1).map fun (i : Nat) => piece segment gap (1 : Nat) n i := by
    have h := piece_one segment gap hd
    simpa using h.symm
  rw [split, splitCount]
  simp only [Exact.zero_eq, Bool.or_eq_true, decide_eq_true_eq]
  split
  · exact hone
  · have hmem := (pieceCount_mem maxPieces segment n).1
    split
    · rename_i h
      rw [h]
      exact hone
    · rw [Int.toNat_of_nonneg (by omega)]

theorem split_of_count_one (segment gap : Rat) (hd : shortest ≤ n.duration)
    (h : splitCount segment maxPieces n = 1) : split segment gap maxPieces n = [n] := by
  rw [split_eq_map maxPieces segment gap hd, h]
  exact congrArg (fun m => [m]) (piece_one segment gap hd)

theorem piece_mem_split (segment gap : Rat) (hd : shortest ≤ n.duration) {i : Nat}
    (hi : i < splitCount segment maxPieces n) :
    piece segment gap (splitCount segment maxPieces n) n i ∈ split segment gap maxPieces n := by
  rw [split_eq_map maxPieces segment gap hd]
  exact List.mem_map.mpr ⟨i, List.mem_range.mpr hi, rfl⟩

theorem mem_split {p : Note Rat} (hd : shortest ≤ n.duration)
    (hp : p ∈ split segment gap maxPieces n) : ∃ i : Nat, i < splitCount segment maxPieces n ∧
      p = piece segment gap (splitCount segment maxPieces n) n i := by
  rw [split_eq_map maxPieces segment gap hd] at hp
  obtain ⟨i, hi, rfl⟩ := List.mem_map.mp hp
  exact ⟨i, List.mem_range.mp hi, rfl⟩

theorem mul_segment_nonneg {i : Nat} (hi : i < splitCount segment maxPieces n) :
    0 ≤ (i : Rat) * segment := by
  rcases Nat.eq_zero_or_pos i with rfl | hi'
  · simp
  · have h := (divided maxPieces segment n (by omega)).segment_pos
    positivity

/-- A piece that is not the last one is over when the next one begins, or as short as can be. -/
theorem inner_piece (hg : 0 ≤ gap) (segment : Rat) {count i : Int} (hi : i + 1 < count) :
    (piece segment gap count n i).finish ≤ n.start + (i + 1) * segment ∨
      (piece segment gap count n i).duration = shortest := by
  rw [finish_eq, piece_start, piece_duration, if_pos hi]
  rcases max_cases (shortest : Rat) (segment - gap) with ⟨h, -⟩ | ⟨h, -⟩
  · exact Or.inr h
  · left
    rw [h]
    linarith

/-- The last piece ends with the note, or is as short as can be. -/
theorem last_piece (segment gap : Rat) {count i : Int} (hi : count ≤ i + 1) :
    (piece segment gap count n i).finish = n.finish ∨
      (piece segment gap count n i).duration = shortest := by
  rw [finish_eq, piece_start, piece_duration, if_neg (not_lt.mpr hi)]
  rcases max_cases (shortest : Rat) (n.duration - i * segment) with ⟨h, -⟩ | ⟨h, -⟩
  · exact Or.inr h
  · left
    rw [h, finish_eq]
    ring

theorem tail_pos (segment : Rat) (hd : shortest ≤ n.duration) :
    ((splitCount segment maxPieces n : Rat) - 1) * segment < n.duration := by
  have hpos := splitCount_pos maxPieces segment n
  rcases hpos.eq_or_lt with h | h
  · rw [← h]
    simp only [shortest_eq] at hd
    norm_num
    linarith
  · have hdiv := divided maxPieces segment n h
    have := hdiv.segment_pos
    rcases hdiv.tail with h | h
    · simp only [shortest_eq] at h
      linarith
    · linarith

/-- The pieces of a note begin within it, and no piece is shorter than the shortest note. -/
theorem split_begins {p : Note Rat} (hd : shortest ≤ n.duration)
    (hp : p ∈ split segment gap maxPieces n) :
    n.start ≤ p.start ∧ p.start < n.finish ∧ shortest ≤ p.duration := by
  obtain ⟨i, hi, rfl⟩ := mem_split maxPieces hd hp
  have hstart := mul_segment_nonneg maxPieces hi
  have htail := tail_pos maxPieces segment hd
  have hle : (i : Rat) * segment ≤ ((splitCount segment maxPieces n : Rat) - 1) * segment := by
    rcases Nat.lt_or_ge 1 (splitCount segment maxPieces n) with h | h
    · have hpos := (divided maxPieces segment n h).segment_pos
      have hle : (i : Rat) + 1 ≤ splitCount segment maxPieces n := by exact_mod_cast hi
      exact mul_le_mul_of_nonneg_right (by linarith) hpos.le
    · have hone : splitCount segment maxPieces n = 1 := by omega
      have hzero : i = 0 := by omega
      rw [hone, hzero]
      norm_num
  rw [piece_start, piece_duration, finish_eq]
  push_cast
  exact ⟨by linarith, by linarith, le_max_left _ _⟩

theorem next_start_lt (hd : shortest ≤ n.duration) {i : Nat}
    (hi : i + 1 < splitCount segment maxPieces n) :
    n.start + ((i : Rat) + 1) * segment < n.finish := by
  have h := (split_begins maxPieces hd (piece_mem_split maxPieces segment 0 hd hi)).2.1
  rw [piece_start] at h
  push_cast at h
  exact h

/-- The pieces of a note start a segment apart. One that is not over when a later one begins is as
short as can be. -/
theorem split_pairwise (hg : 0 ≤ gap) (hd : shortest ≤ n.duration) :
    (split segment gap maxPieces n).Pairwise (fun p q => 0 < segment ∧
      p.start + segment ≤ q.start ∧ (p.finish ≤ q.start ∨ p.duration = shortest)) := by
  rw [split_eq_map maxPieces segment gap hd, List.pairwise_map]
  refine List.pairwise_lt_range.imp_of_mem fun {i j} hi hj hij => ?_
  have hj := List.mem_range.mp hj
  have hpos := (divided maxPieces segment n (by omega)).segment_pos
  have hle : (i : Rat) + 1 ≤ j := by exact_mod_cast hij
  have hmul : ((i : Rat) + 1) * segment ≤ j * segment := mul_le_mul_of_nonneg_right hle hpos.le
  rw [piece_start, piece_start]
  push_cast
  refine ⟨hpos, by linarith, ?_⟩
  rcases inner_piece hg segment (show (i : Int) + 1 < splitCount segment maxPieces n by omega) with
    h | h
  · left
    push_cast at h
    linarith
  · exact Or.inr h

/-- A piece is over when its note is, or is as short as can be. -/
theorem split_over {p : Note Rat} (hg : 0 ≤ gap) (hd : shortest ≤ n.duration)
    (hp : p ∈ split segment gap maxPieces n) : p.finish ≤ n.finish ∨ p.duration = shortest := by
  obtain ⟨i, hi, rfl⟩ := mem_split maxPieces hd hp
  rcases (Nat.succ_le_of_lt hi).eq_or_lt with hlast | hinner
  · rcases last_piece segment gap (show (splitCount segment maxPieces n : Int) ≤ i + 1 by omega) with
      h | h
    · exact Or.inl h.le
    · exact Or.inr h
  · rcases inner_piece hg segment (show (i : Int) + 1 < splitCount segment maxPieces n by omega) with
      h | h
    · push_cast at h
      exact Or.inl (h.trans (next_start_lt maxPieces hd hinner).le)
    · exact Or.inr h

/-- A note that is as short as can be has no longer pieces. -/
theorem split_shortest {p : Note Rat} (hg : 0 ≤ gap) (hd : n.duration = shortest)
    (hp : p ∈ split segment gap maxPieces n) : p.duration = shortest := by
  obtain ⟨i, hi, rfl⟩ := mem_split maxPieces hd.ge hp
  have hstart := mul_segment_nonneg maxPieces hi
  rw [piece_duration]
  apply max_eq_left
  split
  · have hlt := (divided maxPieces segment n (by omega)).segment_lt
    linarith
  · push_cast
    linarith

/-! ### Pieces no shorter than the shortest note -/

/-- Notes are not split, or into pieces that start at least a shortest note apart. -/
def NotShort (segment : Rat) : Prop := segment ≤ 0 ∨ shortest ≤ segment

theorem NotShort.shortest_le (hs : NotShort segment) (n : Note Rat)
    (h : 2 ≤ splitCount segment maxPieces n) :
    shortest ≤ segment :=
  hs.resolve_left (divided maxPieces segment n h).segment_pos.not_ge

/-- A note that is as short as can be is not split. -/
theorem NotShort.split_of_shortest (hs : NotShort segment) (hd : n.duration = shortest) :
    split segment gap maxPieces n = [n] := by
  refine split_of_count_one maxPieces segment gap hd.ge ?_
  have hpos := splitCount_pos maxPieces segment n
  by_contra hne
  have hlt := (divided maxPieces segment n (by omega)).segment_lt
  have hle := hs.shortest_le maxPieces n (by omega)
  linarith

theorem NotShort.inner_piece (hs : NotShort segment) (hg : 0 ≤ gap) {i : Nat}
    (hi : i + 1 < splitCount segment maxPieces n) :
    (piece segment gap (splitCount segment maxPieces n) n i).finish ≤
      n.start + ((i : Rat) + 1) * segment := by
  have hlong := hs.shortest_le maxPieces n (by omega)
  have hmax : max shortest (segment - gap) ≤ segment := max_le hlong (by linarith)
  rw [finish_eq, piece_start, piece_duration, if_pos (by omega)]
  push_cast
  linarith

theorem NotShort.last_piece (hs : NotShort segment) (hd : shortest ≤ n.duration) {i : Nat}
    (hi : i + 1 = splitCount segment maxPieces n) :
    (piece segment gap (splitCount segment maxPieces n) n i).finish = n.finish := by
  have htail : shortest ≤ n.duration - i * segment := by
    rcases Nat.eq_zero_or_pos i with rfl | hi'
    · simpa using hd
    · have hlong := hs.shortest_le maxPieces n (by omega)
      have htail := (divided maxPieces segment n (by omega)).tail
      rw [← hi] at htail
      push_cast at htail
      rw [add_sub_cancel_right] at htail
      rcases htail with h | h
      · exact h
      · exact hlong.trans h.le
  rw [finish_eq, piece_start, piece_duration, if_neg (by omega)]
  push_cast
  rw [max_eq_right htail, finish_eq]
  ring

theorem NotShort.split_finish_le (hs : NotShort segment) (hg : 0 ≤ gap)
    (hd : shortest ≤ n.duration) {p : Note Rat} (hp : p ∈ split segment gap maxPieces n) :
    p.finish ≤ n.finish := by
  obtain ⟨i, hi, rfl⟩ := mem_split maxPieces hd hp
  rcases (Nat.succ_le_of_lt hi).eq_or_lt with hlast | hinner
  · exact (hs.last_piece maxPieces hd hlast).le
  · exact (hs.inner_piece maxPieces hg hinner).trans (next_start_lt maxPieces hd hinner).le

/-- The pieces of a note come one after the other. -/
theorem NotShort.split_pairwise (hs : NotShort segment) (hg : 0 ≤ gap)
    (hd : shortest ≤ n.duration) :
    (split segment gap maxPieces n).Pairwise (fun p q => p.start < q.start ∧ p.finish ≤ q.start) := by
  refine (Note.split_pairwise maxPieces hg hd).imp fun {p q} ⟨hpos, hnext, hover⟩ => ?_
  have hlong := hs.resolve_left hpos.not_ge
  simp only [finish_eq, shortest_eq] at hover hlong ⊢
  rcases hover with hover | hover
  · exact ⟨by linarith, hover⟩
  · exact ⟨by linarith, by linarith⟩

end MusicPart.Note
