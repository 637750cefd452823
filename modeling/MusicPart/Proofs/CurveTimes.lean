import MusicPart.Curve.Control
import MusicPart.Proofs.ExactTime
import MusicPart.Proofs.Runs

/-!
# Times of control changes

The pedal and held curves keep to a selection. So does a sampled curve, unless the rounding that
counts its samples puts the last one after the end.
-/

namespace MusicPart.Curve

/-! ### The last sample -/

theorem finestStep_eq : (Instrument.finestStep : Rat) = 1 / 16 := by
  rw [Instrument.finestStep]
  norm_num

/-- The step at which a curve is sampled. -/
def fineStep (step : Rat) : Rat := max Instrument.finestStep step

theorem fineStep_pos (step : Rat) : 0 < fineStep step := by
  have h : (Instrument.finestStep : Rat) ≤ fineStep step := le_max_left _ _
  rw [finestStep_eq] at h
  linarith

/-- The index of the last sample; negative if it does not fit into a machine word. -/
def lastIndex (length step : Rat) : Int :=
  Quantity.toWord 0x8000000000000000 (lastSample length (fineStep step))

/-- The time of the last sample. -/
def lastTime (length step : Rat) : Rat := lastIndex length step * fineStep step

variable {length step : Rat}

theorem lastIndex_le (h : 0 ≤ length) :
    (lastIndex length step : Rat) ≤ length / fineStep step + 1e-6 := by
  have hdiv : 0 ≤ length / fineStep step := div_nonneg h (fineStep_pos step).le
  have hfloor : lastSample length (fineStep step) = (⌊length / fineStep step + 1e-6⌋ : Rat) :=
    Exact.floor_eq _
  rw [lastIndex, Quantity.toWord]
  rw [hfloor]
  change ((if Quantity.fitsWord 0x8000000000000000 (Quantity.truncate _) then
    Quantity.truncate _ else _ : Int) : Rat) ≤ _
  rw [Exact.truncate_intCast]
  split
  · exact Int.floor_le _
  · have hneg : ((-0x8000000000000000 : Int) : Rat) ≤ 0 := by norm_num
    have heps : (0 : Rat) ≤ 1e-6 := by norm_num
    linarith

/-- The last sample is at most a millionth of a step late. -/
theorem lastTime_le (h : 0 ≤ length) (step : Rat) :
    lastTime length step ≤ length + 1e-6 * fineStep step := by
  have hpos := fineStep_pos step
  calc lastTime length step
      ≤ (length / fineStep step + 1e-6) * fineStep step :=
        mul_le_mul_of_nonneg_right (lastIndex_le h) hpos.le
    _ = length + 1e-6 * fineStep step := by rw [add_mul, div_mul_cancel₀ _ hpos.ne']

theorem samples_eq {points : List (Point Rat)} (h : 0 ≤ length) (hp : points ≠ [])
    (i : Interpolation) (step : Rat) : samples i length step points =
      (List.range (lastIndex length step + 1).toNat).map fun (k : Nat) =>
        sample i points (fineStep step) k := by
  have hstep : (if step < Instrument.finestStep then Instrument.finestStep else step) =
      fineStep step := by
    rw [fineStep]
    split
    · rename_i hlt
      exact (max_eq_left hlt.le).symm
    · rename_i hge
      exact (max_eq_right (not_lt.mp hge)).symm
  have hempty : ¬((points.isEmpty || decide (length < 0.0)) = true) := by
    rw [Exact.zero_eq]
    simpa using ⟨hp, h⟩
  rw [samples]
  rw [if_neg hempty]
  simp only [hstep]
  rfl

theorem samples_time {i : Interpolation} {points : List (Point Rat)} (h : 0 ≤ length) :
    ∀ x ∈ samples i length step points, 0 ≤ x.1 ∧ x.1 ≤ lastTime length step := by
  intro x hx
  by_cases hp : points = []
  · rw [hp] at hx
    exact absurd hx (by simp [samples])
  · rw [samples_eq h hp] at hx
    obtain ⟨k, hk, rfl⟩ := List.mem_map.mp hx
    have hk := List.mem_range.mp hk
    have hle : ((k : Int) : Rat) ≤ lastIndex length step := by
      exact_mod_cast (show (k : Int) ≤ lastIndex length step by omega)
    have hnonneg : (0 : Rat) ≤ ((k : Int) : Rat) := by exact_mod_cast Nat.zero_le k
    have hpos := (fineStep_pos step).le
    exact ⟨mul_nonneg hnonneg hpos, mul_le_mul_of_nonneg_right hle hpos⟩

/-! ### Changes -/

/-- The changes are the first settings of the runs of one value. -/
theorem changes_eq_leaders {α : Type} (last : Option Int) (settings : List (Setting α)) :
    changes last settings = leaders (·.2) last settings := by
  induction settings generalizing last with
  | nil => rfl
  | cons s settings ih => rw [changes, leaders, ih, ih]

theorem changes_sublist {α : Type} (last : Option Int) (settings : List (Setting α)) :
    (changes last settings).Sublist settings := by
  rw [changes_eq_leaders]
  exact leaders_sublist last settings

/-- A setting to another value than the one before it is a change. -/
theorem mem_changes {x y : Setting Rat} (h : x.2 ≠ y.2) (last : Option Int)
    (settings : List (Setting Rat)) : y ∈ changes last (settings ++ [x, y]) := by
  induction settings generalizing last with
  | nil =>
      have hy : y ∈ changes (some x.2) [y] := by simp [changes, h]
      rw [List.nil_append, changes]
      split
      · rename_i hlast
        rw [eq_of_beq hlast]
        exact hy
      · exact List.mem_cons_of_mem x hy
  | cons s settings ih =>
      rw [List.cons_append, changes]
      split
      · exact ih last
      · exact List.mem_cons_of_mem s (ih _)

/-! ### Curves -/

theorem nonnegative_eq (h : 0 ≤ length) : nonnegative length = length := by
  rw [nonnegative]
  rw [Exact.zero_eq]
  split
  · rfl
  · linarith

theorem emit_time (controller channel : Int) (h : 0 ≤ length) (settings : List (Setting Rat)) :
    ∀ e ∈ emit controller channel length settings, 0 ≤ e.time ∧ e.time ≤ length := by
  intro e he
  obtain ⟨x, -, rfl⟩ := List.mem_map.mp he
  change 0 ≤ Quantity.clamp x.1 0.0 (nonnegative length) ∧
    Quantity.clamp x.1 0.0 (nonnegative length) ≤ length
  rw [nonnegative_eq h, Exact.zero_eq]
  exact Exact.clamp_mem x.1 h

theorem sampledControl_time (i : Interpolation) (controller channel : Int) (sparse : Bool)
    (points : List (Point Rat)) (h : 0 ≤ length) :
    ∀ e ∈ sampledControl i controller length channel step sparse points,
      0 ≤ e.time ∧ e.time ≤ lastTime length step := by
  intro e he
  obtain ⟨x, hx, rfl⟩ := List.mem_map.mp he
  have hsample : x ∈ samples i length step points := by
    split at hx
    · exact (changes_sublist _ _).subset hx
    · exact hx
  exact samples_time h x hsample

/-- What a controller of an instrument has to be for a curve to be sampled. -/
def IsSampled (name : Text) (controller : Int) : Prop :=
  0 ≤ controller ∧ controller ≤ 127 ∧ isPedal name controller = false

theorem control_time (c : Controllers Rat) (channel : Int) (curve : Curve Rat) (h : 0 ≤ length) :
    ∀ e ∈ control c length channel curve, 0 ≤ e.time ∧ (e.time ≤ length ∨
      (∃ controller, c.ofCurve.find? curve.name = some controller ∧
        IsSampled curve.name controller) ∧ e.time ≤ lastTime length c.smoothing.step) := by
  intro e he
  rw [control] at he
  split at he
  · exact absurd he List.not_mem_nil
  · rename_i controller hfind
    simp only [Bool.or_eq_true, decide_eq_true_eq] at he
    split at he
    · exact absurd he List.not_mem_nil
    · rename_i hrange
      split at he
      · have ht := emit_time _ _ h _ e he
        exact ⟨ht.1, Or.inl ht.2⟩
      · rename_i hpedal
        split at he
        · have ht := emit_time _ _ h _ e he
          exact ⟨ht.1, Or.inl ht.2⟩
        · have ht := sampledControl_time _ _ _ _ _ h e he
          have hsampled : IsSampled curve.name controller :=
            ⟨by omega, by omega, by simpa using hpedal⟩
          exact ⟨ht.1, Or.inr ⟨⟨controller, hfind, hsampled⟩, ht.2⟩⟩

/-! ### A sample after the end -/

/-- The time of the sample before the last one. -/
def beforeLast (length step : Rat) : Rat := (lastIndex length step - 1 : Int) * fineStep step

/-- Points between which a curve rises from the sample before the last one to the end. -/
def rise (length step : Rat) : List (Point Rat) :=
  [⟨beforeLast length step, 0⟩, ⟨length, 127⟩]

theorem lastIndex_pos (h : 0 ≤ length) (hlate : length < lastTime length step) :
    1 ≤ lastIndex length step := by
  have hpos : 0 < (lastIndex length step : Rat) :=
    pos_of_mul_pos_left (h.trans_lt hlate) (fineStep_pos step).le
  exact_mod_cast hpos

theorem beforeLast_mem (h : 0 ≤ length) (hlate : length < lastTime length step) :
    0 ≤ beforeLast length step ∧ beforeLast length step < length := by
  have hpos := fineStep_pos step
  have hindex : (1 : Rat) ≤ lastIndex length step := by exact_mod_cast lastIndex_pos h hlate
  have hle := lastTime_le h step
  have heps : (1e-6 : Rat) * fineStep step < fineStep step :=
    mul_lt_of_lt_one_left hpos (by norm_num)
  rw [lastTime] at hle
  rw [beforeLast]
  push_cast
  constructor
  · exact mul_nonneg (by linarith) hpos.le
  · linarith

theorem clean_rise (h : 0 ≤ length) (hlate : length < lastTime length step) :
    clean length (rise length step) = rise length step := by
  obtain ⟨hnonneg, hlt⟩ := beforeLast_mem h hlate
  have hbounded : (rise length step).filterMap (bounded? length) = rise length step := by
    have hfirst : bounded? length ⟨beforeLast length step, 0⟩ =
        some ⟨beforeLast length step, 0⟩ := by
      simp only [bounded?, Exact.isFinite_eq_true, nonnegative_eq h, Exact.zero_eq]
      rw [Exact.clamp_of_mem _ hnonneg hlt.le, Exact.clamp_of_mem _ le_rfl (by norm_num)]
      rfl
    have hsecond : bounded? length ⟨length, 127⟩ = some ⟨length, 127⟩ := by
      simp only [bounded?, Exact.isFinite_eq_true, nonnegative_eq h, Exact.zero_eq]
      rw [Exact.clamp_of_mem _ h le_rfl, Exact.clamp_of_mem _ (by norm_num) (by norm_num)]
      rfl
    simp [rise, hfirst, hsecond]
  have hsorted : sortPoints (rise length step) = rise length step := by
    refine List.mergeSort_of_pairwise ?_
    simpa [rise] using hlt.le
  rw [clean, hbounded, hsorted]
  simp [rise, lastOfEach, hlt.ne]

/-- The last two samples of a rise are at its two points. -/
theorem samples_rise (h : 0 ≤ length) (hlate : length < lastTime length step) :
    ∃ before, samples .linear length step (rise length step) =
      before ++ [(beforeLast length step, 0), (lastTime length step, 127)] := by
  have hpos := lastIndex_pos h hlate
  obtain ⟨-, hlt⟩ := beforeLast_mem h hlate
  obtain ⟨n, hn⟩ : ∃ n : Nat, lastIndex length step = n + 1 :=
    ⟨(lastIndex length step - 1).toNat, by omega⟩
  have hcount : (lastIndex length step + 1).toNat = n + 1 + 1 := by omega
  have htime : Quantity.ofInt (n : Int) * fineStep step = beforeLast length step := by
    rw [beforeLast, hn, add_sub_cancel_right]
    rfl
  have hlast : Quantity.ofInt ((n + 1 : Nat) : Int) * fineStep step = lastTime length step := by
    rw [lastTime, hn]
    rfl
  have hfirst : sample .linear (rise length step) (fineStep step) n =
      (beforeLast length step, 0) := by
    have hvalue : valueAt .linear (beforeLast length step) (rise length step) = 0 := by
      rw [rise, valueAt, if_pos le_rfl]
    have hmidi : Midi.ofQuantity (0 : Rat) = 0 := by decide +kernel
    rw [sample, htime, hvalue, hmidi]
  have hsecond : sample .linear (rise length step) (fineStep step) (n + 1 : Nat) =
      (lastTime length step, 127) := by
    have hvalue : valueAt .linear (lastTime length step) (rise length step) = 127 := by
      rw [rise, valueAt, if_neg (hlt.trans hlate).not_ge, valueFrom, if_pos hlate.le, valueFrom]
    have hmidi : Midi.ofQuantity (127 : Rat) = 127 := by decide +kernel
    rw [sample, hlast, hvalue, hmidi]
  rw [samples_eq h (by simp [rise]), hcount, List.range_succ, List.range_succ, List.map_append,
    List.map_append, List.append_assoc]
  refine ⟨_, congrArg _ ?_⟩
  simp only [List.map_cons, List.map_nil, hfirst, hsecond]
  rfl

/-- A sampled curve that rises at the end has a control change after it. -/
theorem control_late {c : Controllers Rat} (curve : Curve Rat) {controller : Int}
    (hfind : c.ofCurve.find? curve.name = some controller)
    (hsampled : IsSampled curve.name controller) (hlinear : curve.interpolation = .linear)
    (hpoints : curve.points = rise length c.smoothing.step) (h : 0 ≤ length)
    (hlate : length < lastTime length c.smoothing.step) (channel : Int) :
    ∃ e ∈ control c length channel curve, length < e.time := by
  obtain ⟨hlow, hhigh, hpedal⟩ := hsampled
  obtain ⟨before, hsamples⟩ := samples_rise h hlate
  have hmem : (lastTime length c.smoothing.step, (127 : Int)) ∈
      if c.smoothing.sparse then
        changes none (samples .linear length c.smoothing.step (rise length c.smoothing.step))
      else samples .linear length c.smoothing.step (rise length c.smoothing.step) := by
    rw [hsamples]
    split
    · exact mem_changes (show (0 : Int) ≠ 127 by decide) none before
    · simp
  have hrange : ¬((decide (controller < 0) || decide (127 < controller)) = true) := by
    simpa using ⟨hlow, hhigh⟩
  refine ⟨toControl controller channel (lastTime length c.smoothing.step, 127), ?_, hlate⟩
  rw [control]
  rw [hfind]
  simp only [hpoints, clean_rise h hlate, hlinear]
  rw [if_neg hrange, hpedal]
  exact List.mem_map_of_mem hmem

end MusicPart.Curve
