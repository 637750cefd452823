import MusicPart.Proofs.HeldCurves
import MusicPart.Proofs.Pedal
import MusicPart.Proofs.Runs

/-!
# Runs of the pedal

The pedal moves once for each run of breakpoints that put it in one state. It goes up where a run
begins and down a little later, but never so late that it would miss the next run.
-/

namespace MusicPart.Curve

variable {α : Type} [Quantity α]

/-! ### Runs -/

theorem pedalRuns_eq (state : Option Bool) (points : List (Point α)) :
    pedalRuns state points = (leaders isDown state points).map fun p => (p.time, isDown p) := by
  induction points generalizing state with
  | nil => rfl
  | cons p points ih =>
      rw [pedalRuns, leaders]
      split
      · exact ih state
      · rw [List.map_cons, ih]

theorem getElem?_pedalRuns (points : List (Point α)) (k : Nat) : (pedalRuns none points)[k]? =
    ((runsBy isDown points)[k]?.bind List.head?).map fun p => (p.time, isDown p) := by
  rw [pedalRuns_eq, List.getElem?_map, getElem?_leaders]

/-- The runs after the pedal is up at the beginning. -/
def fromRelease : List (α × Bool) → List (α × Bool)
  | [] => []
  | (_, false) :: rest => (0.0, false) :: rest
  | (time, true) :: rest => (0.0, false) :: (time, true) :: rest

theorem pedalSettings_eq (length : α) (points : List (Point α)) : pedalSettings length points =
    edges (length + 1.0) (fromRelease (pedalRuns none points)) := by
  rw [pedalSettings]
  rcases pedalRuns none points with _ | ⟨⟨time, _ | _⟩, rest⟩
  · rfl
  · rfl
  · rfl

theorem exists_fromRelease {points : List (Point α)} (h : points ≠ []) :
    ∃ rest, fromRelease (pedalRuns none points) = (0.0, false) :: rest := by
  obtain ⟨p, points, rfl⟩ := List.exists_cons_of_ne_nil h
  rw [pedalRuns, if_neg (by simp)]
  cases isDown p with
  | false => exact ⟨_, rfl⟩
  | true => exact ⟨_, rfl⟩

/-- How many releases come before the first run. -/
def released (points : List (Point α)) : Nat := if points.head?.any isDown then 1 else 0

theorem length_fromRelease (points : List (Point α)) :
    (fromRelease (pedalRuns none points)).length =
      (pedalRuns none points).length + released points := by
  rcases points with _ | ⟨p, points⟩
  · rfl
  · cases hp : isDown p with
    | false => simp [pedalRuns, hp, fromRelease, released]
    | true => simp [pedalRuns, hp, fromRelease, released]

theorem getElem?_fromRelease (points : List (Point α)) (k : Nat) :
    (fromRelease (pedalRuns none points))[k + released points]? =
      (pedalRuns none points)[k]?.map fun run =>
        (if run.2 = false ∧ k = 0 then 0.0 else run.1, run.2) := by
  rcases points with _ | ⟨p, points⟩
  · rfl
  · cases hp : isDown p with
    | false => cases k <;> simp [pedalRuns, hp, fromRelease, released]
    | true => cases k <;> simp [pedalRuns, hp, fromRelease, released]

/-! ### Edges -/

/-- How the pedal moves at the beginning of a run, the next run being given if there is one. -/
def edge (after : α) (run : α × Bool) (next : Option (α × Bool)) : Setting α :=
  if run.2 then
    (if run.1 + pedalDelay < (next.map (·.1)).getD after then run.1 + pedalDelay else run.1, 127)
  else (run.1, 0)

theorem edges_cons (after : α) (run : α × Bool) (rest : List (α × Bool)) :
    edges after (run :: rest) = edge after run rest.head? :: edges after rest := by
  obtain ⟨time, _ | _⟩ := run
  · rfl
  · rfl

theorem getElem?_edges (after : α) (rs : List (α × Bool)) (k : Nat) :
    (edges after rs)[k]? = rs[k]?.map fun run => edge after run rs[k + 1]? := by
  induction rs generalizing k with
  | nil => rfl
  | cons run rest ih =>
      rw [edges_cons]
      cases k with
      | zero => simp [List.head?_eq_getElem?]
      | succ k => exact ih k

theorem length_edges (after : α) (rs : List (α × Bool)) :
    (edges after rs).length = rs.length := by
  induction rs with
  | nil => rfl
  | cons run rest ih => rw [edges_cons, List.length_cons, List.length_cons, ih]

/-- The value that puts the pedal into a state. -/
def pedalValue (down : Bool) : Int := if down then 127 else 0

theorem pedalValue_injective : Function.Injective pedalValue := by
  intro a b h
  revert a b
  decide

theorem edge_snd (after : α) (run : α × Bool) (next : Option (α × Bool)) :
    (edge after run next).2 = pedalValue run.2 := by
  rw [edge, pedalValue]
  split <;> rfl

theorem map_snd_edges (after : α) (rs : List (α × Bool)) :
    (edges after rs).map (·.2) = rs.map fun run => pedalValue run.2 := by
  induction rs with
  | nil => rfl
  | cons run rest ih => rw [edges_cons, List.map_cons, List.map_cons, edge_snd, ih]

/-- The changes of a pedal whose runs alternate are all its settings. -/
theorem changes_edges (after : α) {rs : List (α × Bool)} (h : rs.IsChain fun a b => a.2 ≠ b.2) :
    changes none (edges after rs) = edges after rs := by
  have hvalues : ((edges after rs).map (·.2)).IsChain (· ≠ ·) := by
    rw [map_snd_edges, List.isChain_map]
    exact h.imp fun _ _ => pedalValue_injective.ne
  rw [changes_eq_leaders]
  exact leaders_of_isChain ((List.isChain_map _).mp hvalues) fun _ _ => nofun

/-! ### Exact times -/

/-- Runs that alternate, in order of time and within a selection. -/
structure Alternating (length : Rat) (rs : List (Rat × Bool)) : Prop where
  alternates : rs.IsChain fun a b => a.2 ≠ b.2
  ordered : rs.Pairwise fun a b => a.1 ≤ b.1
  within : ∀ run ∈ rs, 0 ≤ run.1 ∧ run.1 ≤ length

theorem pedalDelay_eq : (pedalDelay : Rat) = 1 / 10 := by
  rw [pedalDelay]
  norm_num

variable {length : Rat} {points : List (Point Rat)}

theorem Placed.alternating (h : Placed length points) :
    Alternating length (pedalRuns none points) := by
  have hsublist : (leaders isDown none points).Sublist points := leaders_sublist none points
  rw [pedalRuns_eq]
  constructor
  · rw [List.isChain_map]
    exact (isChain_leaders none points).1
  · rw [List.pairwise_map]
    exact (h.increasing.sublist hsublist).imp le_of_lt
  · rw [List.forall_mem_map]
    intro p hp
    have hwithin := h.within p (hsublist.subset hp)
    rwa [Exact.zero_eq] at hwithin

theorem Alternating.fromRelease {rs : List (Rat × Bool)} (h : Alternating length rs) :
    Alternating length (fromRelease rs) := by
  rcases rs with _ | ⟨⟨time, down⟩, rest⟩
  · exact h
  obtain ⟨hhead, htail⟩ := List.isChain_cons.mp h.alternates
  obtain ⟨hfirst, hordered⟩ := List.pairwise_cons.mp h.ordered
  obtain ⟨⟨hlow, hhigh⟩, hwithin⟩ := List.forall_mem_cons.mp h.within
  have hlength : 0 ≤ length := hlow.trans hhigh
  cases down with
  | false =>
      rw [Curve.fromRelease, Exact.zero_eq]
      exact ⟨List.isChain_cons.mpr ⟨hhead, htail⟩,
        List.pairwise_cons.mpr ⟨fun run hrun => (hwithin run hrun).1, hordered⟩,
        List.forall_mem_cons.mpr ⟨⟨le_rfl, hlength⟩, hwithin⟩⟩
  | true =>
      rw [Curve.fromRelease, Exact.zero_eq]
      exact ⟨List.isChain_cons_cons.mpr ⟨Bool.false_ne_true, h.alternates⟩,
        List.pairwise_cons.mpr ⟨fun run hrun => (h.within run hrun).1, h.ordered⟩,
        List.forall_mem_cons.mpr ⟨⟨le_rfl, hlength⟩, h.within⟩⟩

/-- The pedal does not move before its run. -/
theorem le_edge (after : Rat) (run : Rat × Bool) (next : Option (Rat × Bool)) :
    run.1 ≤ (edge after run next).1 := by
  rw [edge, pedalDelay_eq]
  split
  · dsimp only
    split <;> linarith
  · exact le_rfl

/-- The pedal has moved before the next run. -/
theorem edge_le {run next : Rat × Bool} (h : run.1 ≤ next.1) (after : Rat) :
    (edge after run (some next)).1 ≤ next.1 := by
  rw [edge]
  split
  · dsimp only
    split
    · rename_i hlate
      exact le_of_lt hlate
    · exact h
  · exact h

theorem edges_ordered (after : Rat) {rs : List (Rat × Bool)}
    (h : rs.Pairwise fun a b => a.1 ≤ b.1) :
    (∀ s ∈ edges after rs, ∀ run ∈ rs.head?, run.1 ≤ s.1) ∧
      (edges after rs).Pairwise fun a b => a.1 ≤ b.1 := by
  induction rs with
  | nil => exact ⟨List.forall_mem_nil _, .nil⟩
  | cons run rest ih =>
      obtain ⟨hrun, hrest⟩ := List.pairwise_cons.mp h
      obtain ⟨hlow, hordered⟩ := ih hrest
      -- Between the edge of this run and those that follow is the beginning of the next run.
      have hlater : ∀ s ∈ edges after rest, (edge after run rest.head?).1 ≤ s.1 := by
        intro s hs
        rcases rest with _ | ⟨next, rest⟩
        · exact absurd hs List.not_mem_nil
        · exact (edge_le (hrun next List.mem_cons_self) after).trans (hlow s hs next rfl)
      rw [edges_cons]
      refine ⟨List.forall_mem_cons.mpr ⟨?_, fun s hs => ?_⟩, List.pairwise_cons.mpr
        ⟨hlater, hordered⟩⟩
      · intro first hfirst
        obtain rfl := Option.some_inj.mp hfirst
        exact le_edge after run rest.head?
      · intro first hfirst
        obtain rfl := Option.some_inj.mp hfirst
        exact (le_edge after run rest.head?).trans (hlater s hs)

/-- When the pedal goes down for a run, the beginning of the next run being given if there is
one. -/
def pressTime (length start : Rat) (next : Option Rat) : Rat :=
  if ∀ t ∈ next, start + 1 / 10 < t then min length (start + 1 / 10) else start

theorem clamp_edge {run : Rat × Bool} (hlow : 0 ≤ run.1) (hhigh : run.1 ≤ length)
    (next : Option (Rat × Bool)) :
    Quantity.clamp (edge (length + 1.0) run next).1 0.0 (nonnegative length) =
      if run.2 then pressTime length run.1 (next.map (·.1)) else run.1 := by
  have hlength : 0 ≤ length := hlow.trans hhigh
  have hlate : run.1 + 1 / 10 < (next.map (·.1)).getD (length + 1) ↔
      ∀ t ∈ next.map (·.1), run.1 + 1 / 10 < t := by
    cases next with
    | none =>
        refine ⟨fun _ => nofun, fun _ => ?_⟩
        rw [Option.map_none, Option.getD_none]
        linarith
    | some next => simp
  rw [nonnegative_eq hlength, Exact.zero_eq, edge, pedalDelay_eq, Exact.one_eq, pressTime]
  split
  · simp only [hlate]
    split
    · rw [Exact.clamp_eq _ hlength, min_comm, max_eq_right (le_min hlength (by linarith))]
    · exact Exact.clamp_of_mem _ hlow hhigh
  · exact Exact.clamp_of_mem _ hlow hhigh

/-- Every edge is emitted, at a time within the selection. -/
theorem pedalControl_eq (hplaced : Placed length points) (controller channel : Int) :
    pedalControl controller length channel points =
      (edges (length + 1.0) (fromRelease (pedalRuns none points))).map fun s =>
        toControl controller channel (Quantity.clamp s.1 0.0 (nonnegative length), s.2) := by
  have hchanges := changes_edges (length + 1.0) hplaced.alternating.fromRelease.alternates
  rw [pedalControl, emit, pedalSettings_eq, hchanges]

theorem pedalControl_alternates (hplaced : Placed length points) (controller channel : Int) :
    (pedalControl controller length channel points).IsChain fun a b =>
      a.value = 0 ∧ b.value = 127 ∨ a.value = 127 ∧ b.value = 0 := by
  have hvalues : ((edges (length + 1.0) (fromRelease (pedalRuns none points))).map (·.2)).IsChain
      fun m n => m = 0 ∧ n = 127 ∨ m = 127 ∧ n = 0 := by
    rw [map_snd_edges, List.isChain_map]
    refine hplaced.alternating.fromRelease.alternates.imp fun a b hab => ?_
    revert hab
    generalize a.2 = down
    generalize b.2 = down'
    revert down down'
    decide
  rw [pedalControl_eq hplaced, List.isChain_map]
  exact (List.isChain_map _).mp hvalues

theorem pedalControl_ordered (hplaced : Placed length points) (hlength : 0 ≤ length)
    (controller channel : Int) :
    (pedalControl controller length channel points).Pairwise fun a b => a.time ≤ b.time := by
  have hordered := (edges_ordered (length + 1.0) hplaced.alternating.fromRelease.ordered).2
  rw [pedalControl_eq hplaced, List.pairwise_map]
  refine hordered.imp fun {a b} hab => ?_
  have hbounds : ¬nonnegative length < 0.0 := by
    rw [nonnegative_eq hlength, Exact.zero_eq]
    exact not_lt.mpr hlength
  exact not_lt.mp (Quantity.not_clamp_lt_clamp hbounds (not_lt.mpr hab))

theorem getElem?_pedalControl (hplaced : Placed length points) (controller channel : Int) {k : Nat}
    {p : Point Rat} {rest : List (Point Rat)}
    (hrun : (runsBy isDown points)[k]? = some (p :: rest)) :
    (pedalControl controller length channel points)[k + released points]? = some (
      if isDown p then
        ⟨pressTime length p.time (((runsBy isDown points)[k + 1]?.bind List.head?).map (·.time)),
          controller, 127, channel⟩
      else ⟨if k = 0 then 0 else p.time, controller, 0, channel⟩) := by
  have hfirst : (fromRelease (pedalRuns none points))[k + released points]? =
      some (if isDown p = false ∧ k = 0 then 0.0 else p.time, isDown p) := by
    rw [getElem?_fromRelease, getElem?_pedalRuns, hrun]
    rfl
  -- Only the first run may begin earlier than its points, and it is nobody's next run.
  have hnext : (fromRelease (pedalRuns none points))[k + released points + 1]?.map (·.1) =
      ((runsBy isDown points)[k + 1]?.bind List.head?).map (·.time) := by
    rw [Nat.add_right_comm, getElem?_fromRelease, getElem?_pedalRuns, Option.map_map,
      Option.map_map]
    congr 1
    funext q
    simp
  obtain ⟨hlow, hhigh⟩ := hplaced.alternating.fromRelease.within _ (List.mem_of_getElem? hfirst)
  rw [pedalControl_eq hplaced, List.getElem?_map, getElem?_edges, hfirst, Option.map_some,
    Option.map_some, toControl, clamp_edge hlow hhigh, hnext, edge_snd]
  cases hp : isDown p with
  | false => simp [pedalValue]
  | true => simp [pedalValue]

/-- The pedal moves once for each run, and up at the beginning. It moves where the run begins, and
down a little later if neither the end nor the next run is too near. -/
theorem pedalControl_runs (hpoints : points ≠ []) (hplaced : Placed length points)
    (controller channel : Int) :
    let es := pedalControl controller length channel points
    let runs := runsBy isDown points
    es.head? = some ⟨0, controller, 0, channel⟩ ∧
      es.IsChain (fun a b => a.value = 0 ∧ b.value = 127 ∨ a.value = 127 ∧ b.value = 0) ∧
      es.Pairwise (fun a b => a.time ≤ b.time) ∧
      (∀ e ∈ es, 0 ≤ e.time ∧ e.time ≤ length) ∧
      es.length = runs.length + released points ∧
      ∀ k p rest, runs[k]? = some (p :: rest) →
        es[k + released points]? = some (
          if isDown p then
            ⟨pressTime length p.time ((runs[k + 1]?.bind List.head?).map (·.time)), controller, 127,
              channel⟩
          else ⟨if k = 0 then 0 else p.time, controller, 0, channel⟩) := by
  intro es runs
  have hlength : 0 ≤ length := by
    obtain ⟨p, hp⟩ := List.exists_mem_of_ne_nil points hpoints
    obtain ⟨hlow, hhigh⟩ := hplaced.within p hp
    rw [Exact.zero_eq] at hlow
    exact hlow.trans hhigh
  have hes : es = _ := pedalControl_eq hplaced controller channel
  refine ⟨?_, pedalControl_alternates hplaced _ _, pedalControl_ordered hplaced hlength _ _,
    emit_time controller channel hlength _, ?_,
    fun k p rest hrun => getElem?_pedalControl hplaced controller channel hrun⟩
  · obtain ⟨rest, hrest⟩ := exists_fromRelease hpoints
    have hzero : Quantity.clamp (0 : Rat) 0 length = 0 := Exact.clamp_of_mem _ le_rfl hlength
    rw [hes, hrest, edges_cons, List.map_cons, List.head?_cons, nonnegative_eq hlength,
      Exact.zero_eq]
    exact congrArg (fun time => some (toControl controller channel (time, 0))) hzero
  · rw [hes, List.length_map, length_edges, length_fromRelease, pedalRuns_eq, List.length_map,
      length_leaders]

/-- A pedal that is held, lifted for a moment and pressed again at the end. -/
def flutter : List (Point Rat) :=
  [⟨0, 90⟩, ⟨1, 70⟩, ⟨2, 10⟩, ⟨41 / 20, 64⟩, ⟨21 / 10, 0⟩, ⟨4, 127⟩]

theorem flutter_pedalled : flutter ≠ [] ∧ Placed 4 flutter ∧
    (pedalControl 64 4 1 flutter).length = 6 ∧
    (pedalControl 64 4 1 flutter)[1]? = some ⟨1 / 10, 64, 127, 1⟩ ∧
    (pedalControl 64 4 1 flutter)[3]? = some ⟨41 / 20, 64, 127, 1⟩ ∧
    (pedalControl 64 4 1 flutter)[5]? = some ⟨4, 64, 127, 1⟩ := by
  have hpoints : flutter ≠ [] := by simp [flutter]
  have hplaced : Placed 4 flutter := ⟨by decide +kernel, by decide +kernel⟩
  have hruns : runsBy isDown flutter = [[⟨0, 90⟩, ⟨1, 70⟩], [⟨2, 10⟩], [⟨41 / 20, 64⟩],
    [⟨21 / 10, 0⟩], [⟨4, 127⟩]] := by
    norm_num [runsBy, flutter, List.splitBy, List.splitBy.loop, isDown]
  obtain ⟨-, -, -, -, hlength, hevents⟩ := pedalControl_runs hpoints hplaced 64 1
  have hreleased : released flutter = 1 := by decide +kernel
  rw [hruns] at hlength hevents
  rw [hreleased] at hlength hevents
  have hfirst := hevents 0 _ _ rfl
  have hthird := hevents 2 _ _ rfl
  have hlast := hevents 4 _ _ rfl
  norm_num [isDown, pressTime] at hfirst hthird hlast
  exact ⟨hpoints, hplaced, hlength, hfirst, hthird, hlast⟩

end MusicPart.Curve
