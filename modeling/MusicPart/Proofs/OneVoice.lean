import MusicPart.Proofs.Stages

/-!
# One voice

The notes of a monophonic part come one after the other, if drum hits do and no bow is shorter than
the shortest note. Monophony is established when notes are taken in; hits are not asked for it, and
a shorter bow overlaps the one after it.
-/

namespace MusicPart

open Json (Value)
open Note (Apart NotShort segmentOf split splitCount)

/-! ### From taking in to phrasing -/

namespace Score

variable {i : Instrument Rat} {s : Settings Rat} {candidate : Value Rat}

/-- The drum hits that are taken in overlap neither one another nor a note. -/
structure HitsApart (i : Instrument Rat) (s : Settings Rat) (candidate : Value Rat) : Prop where
  hits : (Hit.takeIn s.span s.meter i (elementsOf "drums" candidate)).notes.Pairwise Apart
  notes : ∀ n ∈ (Note.takeIn s.span s.meter i
      (elementsOf "notes" candidate ++ (Pattern.expand s.meter candidate).notes)).notes,
    ∀ h ∈ (Hit.takeIn s.span s.meter i (elementsOf "drums" candidate)).notes, Apart n h

theorem taken_apart (hm : i.mono = true) (hhits : i.isDrum = true → HitsApart i s candidate) :
    (ofCandidate i s candidate).taken.notes.Pairwise Apart := by
  change (takeIn i s candidate _).notes.Pairwise Apart
  rw [takeIn]
  split
  · rename_i hd
    exact List.pairwise_append.mpr
      ⟨Note.takeIn_apart hm _ _, (hhits hd).hits, (hhits hd).notes⟩
  · exact Note.takeIn_apart hm _ _

theorem capped_apart (h : (ofCandidate i s candidate).taken.notes.Pairwise Apart) :
    (Note.capShort i.articulations (general candidate)
      (ofCandidate i s candidate).separated.notes).notes.Pairwise Apart := by
  have hsnapped : (ofCandidate i s candidate).snapped.notes.Pairwise Apart := by
    obtain ⟨before, hperm, hmoves⟩ := snap_moves i s (ofCandidate i s candidate).taken.notes
    refine Note.pairwise_of_forall₂ hmoves (fun {a b a' b'} hab ha hb => ?_)
      (hperm.symm.pairwise h Note.lasting_apart.symm)
    rw [ha.same, hb.same]
    exact hab
  have htrims : Note.Trims (ofCandidate i s candidate).snapped.notes _ :=
    .trans (Note.separate_trims _) (Note.capShort_trims i.articulations (general candidate) _)
  exact htrims.pairwise Note.lasting_apart hsnapped

end Score

namespace Note

variable {segment gap : Rat} (maxPieces : Int) {notes : List (Note Rat)} {n : Note Rat}

theorem flatMap_split_apart (hs : NotShort segment) (hg : 0 ≤ gap)
    (hd : ∀ n ∈ notes, shortest ≤ n.duration) (h : notes.Pairwise Apart) :
    (notes.flatMap (split segment gap maxPieces)).Pairwise Apart := by
  have hslack : (0 : Rat) ≤ slack := by
    rw [slack_eq]
    norm_num
  rw [List.pairwise_flatMap]
  refine ⟨fun n hn => ?_, h.imp_of_mem fun {a b} ha hb hab p hp q hq => ?_⟩
  · refine (hs.split_pairwise maxPieces hg (hd n hn)).imp fun {p q} hpq => Or.inl ?_
    linarith [hpq.2]
  · have hpa := hs.split_finish_le maxPieces hg (hd a ha) hp
    have hqb := hs.split_finish_le maxPieces hg (hd b hb) hq
    have hap := (split_begins maxPieces (hd a ha) hp).1
    have hbq := (split_begins maxPieces (hd b hb) hq).1
    rcases hab with hab | hab
    · exact Or.inl (by linarith)
    · exact Or.inr (by linarith)

/-- The first two pieces of a note overlap if their segment is shorter than the shortest note. -/
theorem split_not_apart (hs : segment + slack < shortest) (hd : shortest ≤ n.duration)
    (h : 2 ≤ splitCount segment maxPieces n) : ¬(split segment gap maxPieces n).Pairwise Apart := by
  intro hpair
  have hpos := (divided maxPieces segment n h).segment_pos
  rw [split_eq_map maxPieces segment gap hd, List.pairwise_map] at hpair
  have hpair := List.pairwise_iff_getElem.mp hpair 0 1 (by simpa using by omega)
    (by simpa using by omega) one_pos
  simp only [List.getElem_range] at hpair
  have hfirst : shortest ≤ (piece segment gap (splitCount segment maxPieces n) n 0).duration := by
    rw [piece_duration]
    exact le_max_left _ _
  have hsecond : shortest ≤ (piece segment gap (splitCount segment maxPieces n) n 1).duration := by
    rw [piece_duration]
    exact le_max_left _ _
  rcases hpair with hover | hover
  · rw [finish_eq, piece_start, piece_start] at hover
    push_cast at hover
    linarith
  · rw [finish_eq, piece_start, piece_start] at hover
    push_cast at hover
    linarith

theorem flatMap_split_of_count_one (segment gap : Rat) (hd : ∀ n ∈ notes, shortest ≤ n.duration)
    (h : ∀ n ∈ notes, splitCount segment maxPieces n = 1) :
    notes.flatMap (split segment gap maxPieces) = notes := by
  induction notes with
  | nil => rfl
  | cons n notes ih =>
      rw [List.flatMap_cons, split_of_count_one maxPieces segment gap (hd n (by simp)) (h n (by simp)),
        ih (fun m hm => hd m (by simp [hm])) (fun m hm => h m (by simp [hm]))]
      rfl

end Note

/-! ### Parts -/

/-- No bow is shorter than the shortest note, or no note is split at all. -/
def Score.Unbroken (i : Instrument Rat) (s : Settings Rat) (candidate : Value Rat) : Prop :=
  NotShort (segmentOf i s.meter s.arranged) ∨
    ∀ n ∈ (Note.capShort i.articulations (general candidate)
      (ofCandidate i s candidate).separated.notes).notes,
      splitCount (segmentOf i s.meter s.arranged) i.stamina.maxPieces n = 1

namespace Score

variable {i : Instrument Rat} {s : Settings Rat} {candidate : Value Rat}

theorem phrased_apart (h : (ofCandidate i s candidate).taken.notes.Pairwise Apart)
    (hu : Unbroken i s candidate) : (ofCandidate i s candidate).phrased.notes.Pairwise Apart := by
  obtain ⟨gap, hg, hperm⟩ := phrased_perm i s candidate
  refine hperm.symm.pairwise ?_ Note.lasting_apart.symm
  rcases hu with hs | hone
  · exact Note.flatMap_split_apart _ hs hg (fun n hn => (capped_held n hn).shortest_le)
      (capped_apart h)
  · rw [Note.flatMap_split_of_count_one _ _ _ (fun n hn => (capped_held n hn).shortest_le) hone]
    exact capped_apart h

theorem unbroken_of_phrased_apart
    (hs : segmentOf i s.meter s.arranged + Note.slack < Note.shortest)
    (h : (ofCandidate i s candidate).phrased.notes.Pairwise Apart) : Unbroken i s candidate := by
  obtain ⟨gap, -, hperm⟩ := phrased_perm i s candidate
  have hpieces := (List.pairwise_flatMap.mp (hperm.pairwise h Note.lasting_apart.symm)).1
  right
  intro n hn
  have hpos := Note.splitCount_pos i.stamina.maxPieces (segmentOf i s.meter s.arranged) n
  by_contra hne
  exact Note.split_not_apart _ hs (capped_held n hn).shortest_le (by omega) (hpieces n hn)

theorem phrased_shortest_le :
    ∀ n ∈ (ofCandidate i s candidate).phrased.notes, Note.shortest ≤ n.duration := by
  obtain ⟨gap, -, hperm⟩ := phrased_perm i s candidate
  intro n hn
  obtain ⟨c, hc, hn⟩ := List.mem_flatMap.mp (hperm.mem_iff.mp hn)
  exact (Note.split_begins _ (capped_held c hc).shortest_le hn).2.2

/-- Delivery keeps apart what is apart, and nothing else. -/
theorem sort_delivered_apart_iff :
    (Note.sort (ofCandidate i s candidate).delivered.notes).Pairwise
        (fun a b => a.finish ≤ b.start + Note.slack) ↔
      (ofCandidate i s candidate).phrased.notes.Pairwise Apart := by
  obtain ⟨before, hperm, hroutes⟩ := delivered_routes i s candidate
  have hsort := Note.sort_perm (ofCandidate i s candidate).delivered.notes
  constructor
  · intro h
    have hsorted := h.imp fun {a b} hab => (Or.inl hab : Apart a b)
    have hdelivered := hsort.pairwise hsorted Note.lasting_apart.symm
    refine hperm.pairwise ?_ Note.lasting_apart.symm
    refine Note.pairwise_of_forall₂ hroutes.flip (fun {a b a' b'} hab ha hb => ?_) hdelivered
    unfold Note.Apart at hab ⊢
    rwa [← ha.start_eq, ← ha.finish_eq, ← hb.start_eq, ← hb.finish_eq]
  · intro h
    have hdelivered : (ofCandidate i s candidate).delivered.notes.Pairwise Apart := by
      refine Note.pairwise_of_forall₂ hroutes (fun {a b a' b'} hab ha hb => ?_)
        (hperm.symm.pairwise h Note.lasting_apart.symm)
      rw [Note.Apart] at hab ⊢
      rwa [ha.start_eq, ha.finish_eq, hb.start_eq, hb.finish_eq]
    have hsorted := hsort.symm.pairwise hdelivered Note.lasting_apart.symm
    refine (hsorted.and (Note.sort_inOrder _)).imp_of_mem fun {a b} _ hb hab => ?_
    refine hab.1.finish_le hab.2.start_le ?_
    obtain ⟨m, hm, hmb⟩ := Note.exists_mem_of_forall₂ hroutes (hsort.mem_iff.mp hb)
    exact hmb.duration_eq ▸ phrased_shortest_le m (hperm.mem_iff.mp hm)

end Score

/-- A cello of one voice that changes its bow every quarter note. -/
def cello : Value Rat :=
  .object [("family", .string "strings"), ("midi", .object [("polyphony", .string "mono")]),
    ("duration_policy", .object [("bow_max_bars", .number (1 / 4))])]

def cellist : Instrument Rat := (Instrument.read? cello).get (by decide)

/-- A long note and another one that begins before it ends. -/
def slurredTones : Value Rat :=
  .object [("notes", .array [.object [("pitch", .number 50), ("dur_q", .number 3)],
    .object [("start_q", .number 2), ("pitch", .number 52), ("dur_q", .number 2)]])]

/-- Drums of one voice. -/
def drumKit : Value Rat :=
  .object [("midi", .object [("polyphony", .string "mono"), ("is_drum", .bool true),
    ("drum_map", .object [("kick", .number 36), ("snare", .number 38)])])]

def drummer : Instrument Rat := (Instrument.read? drumKit).get (by decide)

/-- Two drums at once. -/
def downbeat : Value Rat :=
  .object [("drums", .array [.object [("drum", .string "kick"), ("dur_q", .number 1)],
    .object [("drum", .string "snare"), ("dur_q", .number 1)]])]

set_option maxRecDepth 100000 in
/-- Hits of drums overlap even where the instrument is monophonic. -/
theorem drummer_downbeat_overlaps : Instrument.read? drumKit = some drummer ∧
    drummer.mono = true ∧ ∃ part, Part.compile drummer { length := 4 } downbeat = .ok part ∧
      ¬part.notes.Pairwise fun a b => a.finish ≤ b.start + Note.slack := by
  refine ⟨(Option.some_get _).symm, by decide, _, Part.compile_ok _ _ rfl, fun h => ?_⟩
  have hnotes : (Part.ofScore drummer { length := 4 } downbeat
      (Score.ofCandidate drummer { length := 4 } downbeat)).notes.map
        (fun n => (n.finish, n.start)) = [(1, 0), (1, 0)] := by
    cbv
  have hmap := (List.pairwise_map (f := fun n : Note Rat => (n.finish, n.start))
    (R := fun x y => x.1 ≤ y.2 + Note.slack)).mpr h
  rw [hnotes] at hmap
  norm_num at hmap

end MusicPart
