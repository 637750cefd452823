import MusicPart.Proofs.Stages

/-!
# Unisons

Of two notes with one channel and pitch the earlier one is over when the later one begins, or is as
short as a note can be. Splitting keeps that, and it also keeps their onsets apart unless the pieces
of a bow are shorter than the shortest note. Only the routing of articulations to channels brings
notes of different channels together afterwards.
-/

namespace MusicPart

open Json (Value)

namespace Note

/-- A note that begins before another one is over by then, or as short as can be. -/
def Yields (a b : Note Rat) : Prop :=
  a.start < b.start → a.finish ≤ b.start ∨ a.duration = shortest

/-- What is kept between two notes of one channel and pitch when notes are split by a segment. -/
def TakeTurns (segment : Rat) (a b : Note Rat) : Prop :=
  a.channel = b.channel → a.pitch = b.pitch →
    (NotShort segment → a.start ≠ b.start) ∧ Yields a b ∧ Yields b a

variable {segment gap : Rat} (maxPieces : Int) {n a b p q : Note Rat}

/-- Where a note that is as short as can be is split all the same, the pieces of a later note that
begin before one of its pieces are as short as can be, too. -/
theorem split_overtaken (hg : 0 ≤ gap) (ha : a.duration = shortest) (hb : shortest ≤ b.duration)
    (hab : a.start < b.start) (hp : p ∈ split segment gap maxPieces a)
    (hq : q ∈ split segment gap maxPieces b) (hqp : q.start < p.start) : q.duration = shortest := by
  obtain ⟨i, hi, rfl⟩ := mem_split maxPieces ha.ge hp
  obtain ⟨j, hj, rfl⟩ := mem_split maxPieces hb hq
  rw [piece_start, piece_start] at hqp
  push_cast at hqp
  have hnonneg := mul_segment_nonneg maxPieces hj
  have hpos : 0 < i := by
    rcases Nat.eq_zero_or_pos i with hzero | hpos
    · rw [hzero] at hqp
      push_cast at hqp
      linarith
    · exact hpos
  have hdiv := divided maxPieces segment a (by omega)
  have hij : (j : Rat) < i :=
    lt_of_mul_lt_mul_right (a := segment) (by linarith) hdiv.segment_pos.le
  -- The first note has no more pieces than the second, so this one is not the second's last.
  have hinner : j + 1 < splitCount segment maxPieces b :=
    (Nat.lt_of_le_of_lt (by exact_mod_cast hij) hi).trans_le
      (splitCount_mono maxPieces (ha.le.trans hb))
  have hlt := hdiv.segment_lt
  rw [piece_duration, if_pos (by omega)]
  exact max_eq_left (by linarith)

/-- The pieces of two notes take turns as the notes do. -/
theorem split_yields (hg : 0 ≤ gap) (ha : shortest ≤ a.duration) (hb : shortest ≤ b.duration)
    (hab : a.start < b.start) (hclears : Clears a b) (hp : p ∈ split segment gap maxPieces a)
    (hq : q ∈ split segment gap maxPieces b) :
    (NotShort segment → p.start < q.start) ∧ Yields p q ∧ Yields q p := by
  obtain ⟨-, hpa, -⟩ := split_begins maxPieces ha hp
  obtain ⟨hbq, -, -⟩ := split_begins maxPieces hb hq
  rcases hclears hab with hover | hshort
  · have hover : a.finish ≤ b.start := by
      simp only [gap_eq, slack_eq] at hover
      linarith
    have hpq : p.start < q.start := by linarith
    refine ⟨fun _ => hpq, fun _ => ?_, fun hqp => absurd hqp hpq.not_gt⟩
    rcases split_over maxPieces hg ha hp with h | h
    · exact Or.inl (by linarith)
    · exact Or.inr h
  · have hshort : a.duration = shortest := le_antisymm hshort ha
    refine ⟨fun hs => ?_, fun _ => Or.inr (split_shortest maxPieces hg hshort hp),
      fun hqp => Or.inr (split_overtaken maxPieces hg hshort hb hab hp hq hqp)⟩
    rw [hs.split_of_shortest maxPieces hshort, List.mem_singleton] at hp
    exact hp ▸ hab.trans_le hbq

theorem TakeTurns.symm (h : TakeTurns segment a b) : TakeTurns segment b a := by
  intro hc hp
  obtain ⟨hne, hab, hba⟩ := h hc.symm hp.symm
  exact ⟨fun hs => (hne hs).symm, hba, hab⟩

theorem TakeTurns.routes {s : Articulator Rat} (h : TakeTurns segment a b)
    (hs : s.articulations.delivery ≠ .channel) (hp : s.Routes a p) (hq : s.Routes b q) :
    TakeTurns segment p q := by
  intro hc hpitch
  obtain ⟨hne, hab, hba⟩ := h ((hp.channel_eq hs).symm.trans (hc.trans (hq.channel_eq hs)))
    (hp.pitch_eq.symm.trans (hpitch.trans hq.pitch_eq))
  unfold Yields at hab hba ⊢
  rw [hp.start_eq, hq.start_eq, hp.finish_eq, hq.finish_eq, hp.duration_eq, hq.duration_eq]
  exact ⟨hne, hab, hba⟩

theorem split_takeTurns (hg : 0 ≤ gap) (hd : shortest ≤ n.duration) :
    (split segment gap maxPieces n).Pairwise (TakeTurns segment) := by
  refine (split_pairwise maxPieces hg hd).imp fun {p q} ⟨hpos, hnext, hover⟩ _ _ => ?_
  have hpq : p.start < q.start := by linarith
  exact ⟨fun _ => hpq.ne, fun _ => hover, fun hqp => absurd hqp hpq.not_gt⟩

theorem flatMap_split_takeTurns (hg : 0 ≤ gap) {notes : List (Note Rat)}
    (hd : ∀ n ∈ notes, shortest ≤ n.duration) (h : notes.Pairwise Alternate) :
    (notes.flatMap (split segment gap maxPieces)).Pairwise (TakeTurns segment) := by
  rw [List.pairwise_flatMap]
  refine ⟨fun n hn => split_takeTurns maxPieces hg (hd n hn), ?_⟩
  refine h.imp_of_mem fun {a b} ha hb hab p hp q hq hc hpitch => ?_
  have hac : p.channel = a.channel ∧ p.pitch = a.pitch := by
    obtain ⟨i, -, rfl⟩ := mem_split maxPieces (hd a ha) hp
    exact ⟨rfl, rfl⟩
  have hbc : q.channel = b.channel ∧ q.pitch = b.pitch := by
    obtain ⟨i, -, rfl⟩ := mem_split maxPieces (hd b hb) hq
    exact ⟨rfl, rfl⟩
  obtain ⟨hne, hclears, hclears'⟩ := hab (hac.1.symm.trans (hc.trans hbc.1))
    (hac.2.symm.trans (hpitch.trans hbc.2))
  rcases hne.lt_or_gt with hlt | hlt
  · obtain ⟨hstart, hpq, hqp⟩ :=
      split_yields maxPieces hg (hd a ha) (hd b hb) hlt hclears hp hq
    exact ⟨fun hs => (hstart hs).ne, hpq, hqp⟩
  · obtain ⟨hstart, hqp, hpq⟩ :=
      split_yields maxPieces hg (hd b hb) (hd a ha) hlt hclears' hq hp
    exact ⟨fun hs => (hstart hs).ne', hpq, hqp⟩

end Note

/-! ### Parts -/

theorem Score.phrased_takeTurns (i : Instrument Rat) (s : Settings Rat) (candidate : Value Rat) :
    (ofCandidate i s candidate).phrased.notes.Pairwise
      (Note.TakeTurns (Note.segmentOf i s.meter s.arranged)) := by
  obtain ⟨gap, hg, hperm⟩ := phrased_perm i s candidate
  refine hperm.symm.pairwise ?_ Note.TakeTurns.symm
  refine Note.flatMap_split_takeTurns _ hg (fun n hn => (capped_held n hn).shortest_le) ?_
  exact (Note.capShort_trims _ _ _).pairwise Note.lasting_alternate (Note.separate_alternate _)

/-- Horns that play the articulation `a` on a channel of its own. -/
def horns : Value Rat :=
  .object [("articulations", .object [("mode", .string "channel"),
    ("map", .object [("a", .object [("chan", .number 4)])])])]

def hornPlayers : Instrument Rat := (Instrument.read? horns).get (by decide)

/-- One tone on two channels. -/
def doubledTone : Value Rat :=
  .object [("articulation", .string "a"), ("notes", .array [
    .object [("pitch", .number 60), ("dur_q", .number 2), ("chan", .number 0)],
    .object [("pitch", .number 60), ("dur_q", .number 2), ("chan", .number 1)]])]

/-- A fiddle whose bow is shorter than the shortest note. -/
def fiddle : Value Rat :=
  .object [("family", .string "strings"),
    ("duration_policy", .object [("bow_max_bars", .number (3 / 512))])]

def fiddler : Instrument Rat := (Instrument.read? fiddle).get (by decide)

/-- One tone twice, the second time a bow later. -/
def repeatedTone : Value Rat :=
  .object [("notes", .array [
    .object [("pitch", .number 60), ("dur_q", .number (1 / 16))],
    .object [("start_q", .number (3 / 128)), ("pitch", .number 60), ("dur_q", .number (1 / 16))]])]

theorem Note.not_pairwise_of_keys {notes : List (Note Rat)} {keys : List (Int × Int × Rat)}
    (h : notes.map (fun n => (n.channel, n.pitch, n.start)) = keys) (hk : ¬keys.Nodup) :
    ¬notes.Pairwise fun a b => a.channel = b.channel → a.pitch = b.pitch → a.start ≠ b.start := by
  intro hp
  apply hk
  rw [← h, List.nodup_iff_pairwise_ne, List.pairwise_map]
  refine hp.imp fun {a b} hab heq => ?_
  obtain ⟨hc, hrest⟩ := Prod.mk.inj heq
  obtain ⟨hpitch, hstart⟩ := Prod.mk.inj hrest
  exact hab hc hpitch hstart

deriving instance DecidableEq for Note

/-- The shortest middle C. -/
def shortTone (start : Rat) : Note Rat := ⟨start, 1 / 16, 60, 80, 1, []⟩

/-- Each of two notes a bow apart becomes two pieces, and one onset is that of two pieces. -/
def bowedTones : List (Note Rat) :=
  [shortTone 0, shortTone (3 / 128), shortTone (3 / 128), shortTone (3 / 64)]

set_option maxRecDepth 100000 in
theorem fiddler_bows : (Note.phrase fiddler {} [] true [shortTone 0, shortTone (3 / 128)]).notes =
    bowedTones := by
  have hcapped : (Note.capShort fiddler.articulations [] [shortTone 0, shortTone (3 / 128)]).notes =
      [shortTone 0, shortTone (3 / 128)] := by
    decide +kernel
  have hsorted : Note.sortByPitch bowedTones = bowedTones := by
    cbv
  rw [← hsorted]
  rw [Note.phrase]
  rw [if_neg (by decide), if_pos (by decide)]
  rw [Note.splitBows]
  simp only [hcapped]
  rw [if_neg (by decide +kernel)]
  refine congrArg Note.sortByPitch ?_
  decide +kernel

set_option maxRecDepth 100000 in
theorem fiddler_repeatedTone :
    (Part.ofScore fiddler { length := 4, arranged := true } repeatedTone
      (Score.ofCandidate fiddler { length := 4, arranged := true } repeatedTone)).notes =
      Note.sort bowedTones := by
  have htaken : (Score.takeIn fiddler { length := 4, arranged := true } repeatedTone
      (Pattern.expand {} repeatedTone)).notes = [shortTone 0, shortTone (3 / 128)] := by
    decide +kernel
  have hseparated : (Note.separate (Score.snap fiddler { length := 4, arranged := true }
      [shortTone 0, shortTone (3 / 128)]).notes).notes = [shortTone 0, shortTone (3 / 128)] := by
    cbv
  have hdelivered : (Score.deliver fiddler { length := 4, arranged := true } bowedTones [] []).notes =
      bowedTones := by
    cbv
  have hgeneral : Score.general repeatedTone = [] := by decide
  have htimeline : ArticulationChange.readAll {}
      ((repeatedTone.find? "articulation_changes").getD .null) = [] := by
    cbv
  refine congrArg Note.sort ?_
  rw [Score.ofCandidate]
  simp only [htaken, hseparated, hgeneral, htimeline, fiddler_bows, hdelivered]

end MusicPart
