import MusicPart.Part

/-!
# Other tags

Most stages look at everything in a note but its tag: how it is brought into bounds, snapped to
chords, separated from others and split, and what is told of a part to others. With other tags they
do the same.
-/

namespace MusicPart

open Json (Value)

variable {α : Type}

namespace Note

/-- The same note with another tag. -/
def retag (f : Text → Text) (n : Note α) : Note α := { n with tag := f n.tag }

section Fields

variable (f : Text → Text) (n : Note α)

@[simp]
theorem retag_start : (retag f n).start = n.start := rfl

@[simp]
theorem retag_duration : (retag f n).duration = n.duration := rfl

@[simp]
theorem retag_pitch : (retag f n).pitch = n.pitch := rfl

@[simp]
theorem retag_velocity : (retag f n).velocity = n.velocity := rfl

@[simp]
theorem retag_channel : (retag f n).channel = n.channel := rfl

@[simp]
theorem retag_tag : (retag f n).tag = f n.tag := rfl

end Fields

variable [Quantity α] (f : Text → Text)

@[simp]
theorem retag_finish (n : Note α) : (retag f n).finish = n.finish := rfl

/-! ### Orders and groups -/

@[simp]
theorem sort_retag (notes : List (Note α)) :
    sort (notes.map (retag f)) = (sort notes).map (retag f) :=
  (List.map_mergeSort (f := retag f) fun _ _ _ _ => rfl).symm

@[simp]
theorem sortByStart_retag (notes : List (Note α)) :
    sortByStart (notes.map (retag f)) = (sortByStart notes).map (retag f) :=
  (List.map_mergeSort (f := retag f) fun _ _ _ _ => rfl).symm

@[simp]
theorem sortByPitch_retag (notes : List (Note α)) :
    sortByPitch (notes.map (retag f)) = (sortByPitch notes).map (retag f) :=
  (List.map_mergeSort (f := retag f) fun _ _ _ _ => rfl).symm

@[simp]
theorem sonorities_retag (notes : List (Note α)) :
    sonorities (notes.map (retag f)) = (sonorities notes).map (·.map (retag f)) := by
  induction notes using sonorities.induct with
  | case1 => simp [sonorities]
  | case2 n notes near ih =>
      have hnear : (notes.map (retag f)).takeWhile
          (fun m => !decide (together < m.start - (retag f n).start)) = near.map (retag f) := by
        rw [List.takeWhile_map]
        rfl
      rw [List.map_cons, sonorities, sonorities, hnear, List.length_map, ← List.map_drop, ih]
      rfl

omit [Quantity α] in
theorem groupsBy_retag (same : Note α → Note α → Bool)
    (hsame : ∀ a b, same (retag f a) (retag f b) = same a b) (notes : List (Note α)) :
    groupsBy same (notes.map (retag f)) = (groupsBy same notes).map (·.map (retag f)) := by
  induction notes using groupsBy.induct same with
  | case1 => simp [groupsBy]
  | case2 n notes ih =>
      have hfilter : (notes.map (retag f)).filter (same (retag f n)) =
          (notes.filter (same n)).map (retag f) := by
        rw [List.filter_map]
        exact congrArg _ (List.filter_congr fun m _ => hsame n m)
      have hothers : others same (retag f n) (notes.map (retag f)) =
          (others same n notes).map (retag f) := by
        rw [others, List.filter_map]
        exact congrArg _ (List.filter_congr fun m _ => congrArg not (hsame n m))
      rw [List.map_cons, groupsBy, groupsBy, hfilter, hothers, ih]
      rfl

/-! ### Intake -/

theorem boundAll_retag (length : α) (i : Instrument α) (raws : List (Value α))
    (notes : List (Note α)) : boundAll length i raws (notes.map (retag f)) =
      { boundAll length i raws notes with
        notes := (boundAll length i raws notes).notes.map (retag f) } := by
  rw [boundAll, boundAll, List.map_map]
  simp only [List.map_map, List.countP_map]
  rfl

theorem apart_retag (last : Option α) (notes : List (Note α)) :
    apart last (notes.map (retag f)) = (apart last notes).map (retag f) := by
  induction notes generalizing last with
  | nil => rfl
  | cons n notes ih =>
      rw [List.map_cons, apart, apart, retag_start]
      split
      · exact ih last
      · rw [ih, List.map_cons]

theorem crowding_retag (last : Option α) (notes : List (Note α)) :
    crowding last (notes.map (retag f)) = (crowding last notes).map (retag f) := by
  induction notes generalizing last with
  | nil => rfl
  | cons n notes ih =>
      rw [List.map_cons, crowding, crowding, retag_start]
      split
      · rw [ih, List.map_cons]
      · exact ih _

omit [Quantity α] in
theorem followed_retag (notes : List (Note α)) : followed (notes.map (retag f)) =
    (followed notes).map (Prod.map (retag f) (Option.map (retag f))) := by
  induction notes with
  | nil => rfl
  | cons n notes ih => rw [List.map_cons, followed, followed, ih, List.head?_map]; rfl

theorem reaches_retag (p : Note α × Option (Note α)) :
    reaches (Prod.map (retag f) (Option.map (retag f)) p) = reaches p := by
  rw [reaches, reaches, Prod.map_snd, Option.any_map]
  rfl

theorem yield_retag (p : Note α × Option (Note α)) :
    yield (Prod.map (retag f) (Option.map (retag f)) p) = retag f (yield p) := by
  obtain ⟨n, next⟩ := p
  cases next with
  | none => rfl
  | some m =>
      rw [yield, yield]
      dsimp only [Prod.map_snd, Option.map_some]
      rw [apply_ite (retag f)]
      rfl

theorem monophonic_retag (notes : List (Note α)) : monophonic (notes.map (retag f)) =
    { monophonic notes with notes := (monophonic notes).notes.map (retag f) } := by
  have hreaches : reaches ∘ Prod.map (retag f) (Option.map (retag f)) = reaches (α := α) :=
    funext (reaches_retag f)
  have hyield : yield ∘ Prod.map (retag f) (Option.map (retag f)) = retag f ∘ yield (α := α) :=
    funext (yield_retag f)
  rw [monophonic, monophonic]
  simp only [sortByPitch_retag, apart_retag, crowding_retag, followed_retag, List.map_map,
    List.countP_map, List.length_map, hreaches, hyield]

end Note

/-! ### Snapping -/

namespace Harmony

variable [Quantity α] (f : Text → Text)

theorem moves_retag (map : List (Harmony α)) (range : PitchRange) (previous : Option Int)
    (notes : List (Note α)) :
    moves map range previous (notes.map (Note.retag f)) = moves map range previous notes := by
  induction notes generalizing previous with
  | nil => rfl
  | cons n notes ih => rw [List.map_cons, moves, moves, Note.retag_pitch, ih]; rfl

omit [Quantity α] in
theorem moved_retag (n : Note α) (m : Move) :
    moved (Note.retag f n) m = Note.retag f (moved n m) := by
  cases m <;> rfl

theorem snap_retag (map : List (Harmony α)) (range : PitchRange) (notes : List (Note α)) :
    snap map range (notes.map (Note.retag f)) =
      { snap map range notes with notes := (snap map range notes).notes.map (Note.retag f) } := by
  rw [snap, snap]
  simp only [Note.sort_retag, moves_retag, List.zipWith_map_left, List.map_zipWith, moved_retag]

end Harmony

/-! ### Overlaps -/

namespace Note

variable [Quantity α] (f : Text → Text)

theorem cut?_retag (limit : α) (n : Note α) :
    cut? limit (retag f n) = (cut? limit n).map (retag f) := by
  rw [cut?, cut?, apply_ite (Option.map (retag f))]
  rfl

theorem cutBefore_retag (next : Option (Note α)) (n : Note α) :
    cutBefore (next.map (retag f)) (retag f n) = Prod.map (retag f) id (cutBefore next n) := by
  have hcut : ((next.map (retag f)).bind fun m => cut? (m.start - gap) (retag f n)) =
      (next.bind fun m => cut? (m.start - gap) n).map (retag f) := by
    rw [Option.bind_map, Option.map_bind]
    exact congrArg _ (funext fun m => cut?_retag f _ n)
  rw [cutBefore, cutBefore, hcut]
  cases next.bind fun m => cut? (m.start - gap) n <;> rfl

theorem firstOfEach_retag (last : Option α) (notes : List (Note α)) :
    firstOfEach last (notes.map (retag f)) = (firstOfEach last notes).map (retag f) := by
  induction notes generalizing last with
  | nil => rfl
  | cons n notes ih =>
      rw [List.map_cons, firstOfEach, firstOfEach, retag_start]
      split
      · exact ih last
      · rw [ih, List.map_cons]

theorem repeats_retag (last : Option α) (notes : List (Note α)) :
    repeats last (notes.map (retag f)) = (repeats last notes).map (retag f) := by
  induction notes generalizing last with
  | nil => rfl
  | cons n notes ih =>
      rw [List.map_cons, repeats, repeats, retag_start]
      split
      · rw [ih, List.map_cons]
      · exact ih _

theorem cutEach_retag (notes : List (Note α)) :
    cutEach (notes.map (retag f)) = (cutEach notes).map (Prod.map (retag f) id) := by
  induction notes with
  | nil => rfl
  | cons n notes ih =>
      rw [List.map_cons, cutEach, cutEach, List.head?_map, cutBefore_retag, ih, List.map_cons]

theorem cutSonorities_retag (groups : List (List (Note α))) :
    cutSonorities (groups.map (·.map (retag f))) =
      (cutSonorities groups).map (Prod.map (retag f) id) := by
  induction groups with
  | nil => rfl
  | cons g groups ih =>
      have hnext : (groups.map (·.map (retag f))).head?.bind (·.head?) =
          (groups.head?.bind (·.head?)).map (retag f) := by
        rw [List.head?_map, Option.bind_map, Option.map_bind]
        exact congrArg _ (funext fun h => List.head?_map)
      have hcut : cutBefore ((groups.head?.bind (·.head?)).map (retag f)) ∘ retag f =
          Prod.map (retag f) id ∘ cutBefore (groups.head?.bind (·.head?)) :=
        funext (cutBefore_retag f _)
      rw [List.map_cons, cutSonorities, cutSonorities, hnext, List.map_map, hcut, ih,
        List.map_append, List.map_map]

omit [Quantity α] in
/-- What is done with each group is done with the retagged groups as well. -/
theorem flatMap_groupsBy_retag {β : Type} (same : Note α → Note α → Bool)
    (hsame : ∀ a b, same (retag f a) (retag f b) = same a b) {g : List (Note α) → List β}
    {h : β → β} (hg : ∀ group, g (group.map (retag f)) = (g group).map h)
    (notes : List (Note α)) : (groupsBy same (notes.map (retag f))).flatMap g =
      ((groupsBy same notes).flatMap g).map h := by
  rw [groupsBy_retag f same hsame, List.flatMap_map, List.map_flatMap]
  exact congrArg (List.flatMap · _) (funext hg)

omit [Quantity α] in
theorem map_fst_retag (cuts : List (Note α × Bool)) :
    (cuts.map (Prod.map (retag f) id)).map (·.1) = (cuts.map (·.1)).map (retag f) := by
  rw [List.map_map, List.map_map]
  rfl

omit [Quantity α] in
theorem countP_snd_retag (cuts : List (Note α × Bool)) :
    (cuts.map (Prod.map (retag f) id)).countP (·.2) = cuts.countP (·.2) := by
  rw [List.countP_map]
  rfl

theorem separateUnisons_retag (notes : List (Note α)) : separateUnisons (notes.map (retag f)) =
    { separateUnisons notes with notes := (separateUnisons notes).notes.map (retag f) } := by
  have hcuts := flatMap_groupsBy_retag f sharesKey (fun _ _ => rfl)
    (g := fun g => cutEach (firstOfEach none (sortByStart g))) (h := Prod.map (retag f) id)
    (fun g => by rw [sortByStart_retag, firstOfEach_retag, cutEach_retag]) notes
  have hrepeats := flatMap_groupsBy_retag f sharesKey (fun _ _ => rfl)
    (g := fun g => repeats none (sortByStart g)) (h := retag f)
    (fun g => by rw [sortByStart_retag, repeats_retag]) notes
  simp only [separateUnisons, List.flatMap_map, hcuts, hrepeats, map_fst_retag, countP_snd_retag,
    sort_retag, List.length_map]

theorem separateChords_retag (notes : List (Note α)) : separateChords (notes.map (retag f)) =
    { separateChords notes with notes := (separateChords notes).notes.map (retag f) } := by
  have hcuts := flatMap_groupsBy_retag f sharesChannel (fun _ _ => rfl)
    (g := fun g => cutSonorities (sonorities (sortByStart g))) (h := Prod.map (retag f) id)
    (fun g => by rw [sortByStart_retag, sonorities_retag, cutSonorities_retag]) notes
  simp only [separateChords, hcuts, map_fst_retag, countP_snd_retag, sort_retag]

theorem separate_retag (notes : List (Note α)) : separate (notes.map (retag f)) =
    { separate notes with notes := (separate notes).notes.map (retag f) } := by
  simp only [separate, separateUnisons_retag, separateChords_retag]

end Note

/-! ### Splitting -/

namespace Note

variable [Quantity α] (f : Text → Text)

theorem split_retag (segment gap : α) (maxPieces : Int) (n : Note α) :
    split segment gap maxPieces (retag f n) = (split segment gap maxPieces n).map (retag f) := by
  have hcount : pieceCount segment maxPieces (retag f n) = pieceCount segment maxPieces n := rfl
  rw [split, split, hcount, retag_duration, apply_ite (List.map (retag f))]
  dsimp only
  rw [apply_ite (List.map (retag f)), List.map_map]
  rfl

theorem flatten_split_retag (segment gap : α) (maxPieces : Int) (notes : List (Note α)) :
    ((notes.map (retag f)).map (split segment gap maxPieces)).flatten =
      (notes.map (split segment gap maxPieces)).flatten.map (retag f) := by
  rw [List.map_map, List.map_flatten, List.map_map]
  exact congrArg (fun g => (notes.map g).flatten) (funext (split_retag f segment gap maxPieces))

theorem countP_isSplit_retag (segment gap : α) (maxPieces : Int) (notes : List (Note α)) :
    ((notes.map (retag f)).map (split segment gap maxPieces)).countP isSplit =
      (notes.map (split segment gap maxPieces)).countP isSplit := by
  rw [List.map_map, List.countP_map, List.countP_map]
  refine List.countP_congr fun n _ => ?_
  rw [Function.comp_apply, Function.comp_apply, Function.comp_apply, split_retag, isSplit,
    List.length_map]
  rfl

theorem splitBreaths_retag (s : Stamina α) (notes : List (Note α)) :
    splitBreaths s (notes.map (retag f)) =
      { splitBreaths s notes with notes := (splitBreaths s notes).notes.map (retag f) } := by
  rw [splitBreaths, splitBreaths]
  dsimp only
  rw [flatten_split_retag, countP_isSplit_retag]
  split <;> rfl

theorem splitBows_retag (s : Stamina α) (m : Meter) (notes : List (Note α)) :
    splitBows s m (notes.map (retag f)) =
      { splitBows s m notes with notes := (splitBows s m notes).notes.map (retag f) } := by
  rw [splitBows, splitBows]
  dsimp only
  rw [flatten_split_retag, countP_isSplit_retag, sortByPitch_retag]
  split <;> rfl

end Note

/-! ### What is told of the notes -/

section Tells

variable [Quantity α] (f : Text → Text) (notes : List (Note α))

@[simp]
theorem Dynamics.shape_retag (c : Controllers α) (length : α) (curves : List (Curve α)) :
    shape c length (notes.map (Note.retag f)) curves = shape c length notes curves := by
  have hcover : (fun points n => cover points (Note.retag f n)) = cover (α := α) := rfl
  simp only [shape, shapeDynamics, List.foldl_map, hcover]

omit [Quantity α] in
@[simp]
theorem Character.lowest_retag : lowest (notes.map (Note.retag f)) = lowest notes := by
  rw [lowest, List.foldl_map]
  rfl

omit [Quantity α] in
@[simp]
theorem Character.highest_retag : highest (notes.map (Note.retag f)) = highest notes := by
  rw [highest, List.foldl_map]
  rfl

@[simp]
theorem Character.register_retag : register (notes.map (Note.retag f)) = register notes := by
  simp only [register, lowest_retag, highest_retag, List.isEmpty_map, List.map_map]
  rfl

@[simp]
theorem Character.spacings_retag : spacings (notes.map (Note.retag f)) = spacings notes := by
  induction notes with
  | nil => rfl
  | cons n notes ih =>
      cases notes with
      | nil => rfl
      | cons m notes => exact congrArg ((m.start - n.start) :: ·) ih

@[simp]
theorem Character.pulse_retag : pulse (notes.map (Note.retag f)) = pulse notes := by
  simp only [pulse, spacings_retag, List.length_map, ← List.map_take, List.any_map]
  rfl

@[simp]
theorem Character.feel_retag (length : α) :
    feel length (notes.map (Note.retag f)) = feel length notes := by
  simp only [feel, Note.sortByStart_retag, pulse_retag, List.isEmpty_map, List.length_map,
    List.map_map]
  rfl

@[simp]
theorem Character.intensity_retag : intensity (notes.map (Note.retag f)) = intensity notes := by
  simp only [intensity, Note.sortByStart_retag, List.length_map, List.map_map]
  rfl

@[simp]
theorem Handoff.ofNotes_retag (length : α) (role : Text) :
    ofNotes length role (notes.map (Note.retag f)) = ofNotes length role notes := by
  simp only [ofNotes, musicalFunction, Character.lowest_retag, Character.highest_retag,
    Character.register_retag, Character.feel_retag, Character.intensity_retag, List.isEmpty_map,
    List.length_map]

@[simp]
theorem Handoff.validate_retag (length : α) (v : Value α) :
    validate length (notes.map (Note.retag f)) v = validate length notes v := by
  simp only [validate, correct, ofNotes_retag, Character.register_retag, Character.feel_retag,
    List.isEmpty_map]

omit [Quantity α] in
/-- Where the distances between pitches are kept, so are the steps. -/
theorem Motif.steps_map (g : Note α → Note α)
    (hg : ∀ n m, (g m).pitch - (g n).pitch = m.pitch - n.pitch) (notes : List (Note α)) :
    steps (notes.map g) = steps notes := by
  induction notes with
  | nil => rfl
  | cons n notes ih =>
      cases notes with
      | nil => rfl
      | cons m notes =>
          rw [List.map_cons, List.map_cons, steps, hg, ← List.map_cons, ih, steps]

omit [Quantity α] in
theorem Motif.steps_retag : steps (notes.map (Note.retag f)) = steps notes :=
  steps_map (Note.retag f) (fun _ _ => rfl) notes

theorem Motif.finish_retag (origin : α) :
    finish origin (notes.map (Note.retag f)) = finish origin notes := by
  rw [finish, List.foldl_map]
  rfl

@[simp]
theorem Motif.ofNotes_retag (count : Nat) :
    ofNotes count (notes.map (Note.retag f)) = ofNotes count notes := by
  have hopening : opening count (notes.map (Note.retag f)) =
      (opening count notes).map (Note.retag f) := by
    rw [opening, Note.sort_retag, ← List.map_take]
    rfl
  rw [ofNotes, ofNotes, hopening]
  cases opening count notes with
  | nil => rfl
  | cons n rest =>
      have hentries : ((n :: rest).map (Note.retag f)).map (entry n.start) =
          (n :: rest).map (entry n.start) := List.map_map
      have hrhythm : ((n :: rest).map (Note.retag f)).map (fun m => Value.number m.duration) =
          (n :: rest).map fun m => Value.number m.duration := List.map_map
      have hsteps := steps_retag f (n :: rest)
      have hfinish := finish_retag f (n :: rest) n.start
      rw [List.map_cons] at hentries hrhythm hsteps hfinish ⊢
      simp only [Note.retag_start, hentries, hrhythm, hsteps, hfinish]

@[simp]
theorem Key.roots_retag : roots (notes.map (Note.retag f)) = roots notes := by
  simp only [roots, Note.sort_retag, Note.sonorities_retag, List.map_map]
  congr 1
  funext group
  rw [Function.comp_apply, List.map_map]
  rfl

end Tells

end MusicPart
