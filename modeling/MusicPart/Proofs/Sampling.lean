import MusicPart.Proofs.CurveTimes
import MusicPart.Proofs.Multiples

/-!
# Sampled control changes

A sampled curve writes a control change at every sample, or at those alone where the value is
another one than before. Both lists set the same value at every time, and at a sample it is the
value of the curve there, provided that the number of samples fits into a machine word.
-/

namespace MusicPart

variable {α : Type} [Quantity α]

/-! ### Playing control changes -/

namespace ControlChange

/-- The value that was set last at a time, if any was. -/
def inForce (t : α) (es : List (ControlChange α)) : Option Int :=
  ((es.filter fun e => e.time ≤ t).getLast?).map (·.value)

/-- Leaves out every control change to the value of the one right before it. -/
def withoutRepeats (es : List (ControlChange α)) : List (ControlChange α) :=
  ((es.zip (none :: es.map some)).filter fun p => p.2.map (·.value) != some p.1.value).map (·.1)

end ControlChange

namespace Curve

open Quantity (Stepwise)

/-! ### Changes of settings -/

/-- The value of the last of some settings, or the one before all of them. -/
def settled (before : Option Int) (settings : List (Setting α)) : Option Int :=
  (settings.getLast?.map (·.2)).or before

omit [Quantity α] in
theorem settled_cons (before : Option Int) (s : Setting α) (settings : List (Setting α)) :
    settled before (s :: settings) = settled (some s.2) settings := by
  rw [settled, settled, List.getLast?_cons, Option.map_some, Option.some_or]
  cases settings.getLast? <;> rfl

omit [Quantity α] in
/-- A setting of the value that there is already changes nothing later on. -/
theorem settled_filter_changes {p : Setting α → Bool} {settings : List (Setting α)}
    (h : settings.Pairwise fun a b => p b = true → p a = true) (before : Option Int) :
    settled before ((changes before settings).filter p) = settled before (settings.filter p) := by
  induction settings generalizing before with
  | nil => rfl
  | cons s settings ih =>
      obtain ⟨hs, hsettings⟩ := List.pairwise_cons.mp h
      rw [changes]
      by_cases hp : p s = true
      · split
        · rename_i hbefore
          rw [List.filter_cons_of_pos hp, settled_cons, ← eq_of_beq hbefore]
          exact ih hsettings before
        · rw [List.filter_cons_of_pos hp, List.filter_cons_of_pos hp, settled_cons, settled_cons]
          exact ih hsettings (some s.2)
      · -- What comes after a setting that is yet to come is yet to come, too.
        have hnone {later : List (Setting α)} (hlater : later.Sublist settings) :
            later.filter p = [] :=
          List.filter_eq_nil_iff.mpr fun a ha hpa => hp (hs a (hlater.subset ha) hpa)
        rw [List.filter_cons_of_neg hp, hnone (List.Sublist.refl settings)]
        split
        · rw [hnone (changes_sublist before settings)]
        · rw [List.filter_cons_of_neg hp, hnone (changes_sublist _ settings)]

omit [Quantity α] in
/-- Neighbours among the changes differ, and the first one differs from the value before. -/
theorem isChain_changes (before : Option Int) (settings : List (Setting α)) :
    (changes before settings).IsChain (fun a b => a.2 ≠ b.2) ∧
      ∀ s ∈ (changes before settings).head?, before ≠ some s.2 := by
  rw [changes_eq_leaders]
  exact isChain_leaders before settings

omit [Quantity α] in
theorem changes_eq_filter (before : Option (Setting α)) (settings : List (Setting α)) :
    changes (before.map (·.2)) settings =
      ((settings.zip (before :: settings.map some)).filter fun p =>
        p.2.map (·.2) != some p.1.2).map (·.1) := by
  induction settings generalizing before with
  | nil => rfl
  | cons s settings ih =>
      have h := ih (some s)
      rw [changes, List.map_cons, List.zip_cons_cons, List.filter_cons]
      by_cases hs : before.map (·.2) = some s.2
      · simp only [hs, beq_self_eq_true, if_true, bne_self_eq_false, Bool.false_eq_true, if_false]
        exact h
      · have hne : (before.map (·.2) == some s.2) = false := beq_false_of_ne hs
        simp only [bne, hne, Bool.false_eq_true, if_false, Bool.not_false, if_true, List.map_cons]
        exact congrArg (s :: ·) h

/-! ### Times of samples -/

/-- The step at which a curve is sampled: the one that is asked for, or the finest one. -/
def boundStep (step : α) : α := if step < Instrument.finestStep then Instrument.finestStep else step

/-- How many samples a selection has; none if the index of the last one is too large. -/
def sampleCount (length step : α) : Nat :=
  (Conversion.toInt64 (lastSample length (boundStep step))).result?.elim 0 fun k => (k + 1).toNat

theorem samples_eq_map {length : α} {points : List (Point α)} (hpoints : points ≠ [])
    (hlength : ¬length < 0.0) (i : Interpolation) (step : α) : samples i length step points =
      (List.range (sampleCount length step)).map fun (k : Nat) =>
        sample i points (boundStep step) k := by
  have hnonempty : ¬(points.isEmpty || decide (length < 0.0)) = true := by
    simpa using ⟨hpoints, hlength⟩
  have hword : (1 : Int) ≤ 0x8000000000000000 := by decide
  rw [samples, if_neg hnonempty, sampleCount, ← Conversion.toNat_toWord_add hword]
  rfl

variable [Stepwise α] {length step : α} {points : List (Point α)} {i : Interpolation} {j k : Nat}

theorem not_boundStep_lt (step : α) : ¬boundStep step < 0.0625 := by
  rw [boundStep]
  split
  · exact fun h => Quantity.Lawful.not_lt_of_lt h h
  · assumption

theorem sample_time_le (hstep : Quantity.isFinite (boundStep step) = true) (hjk : j ≤ k) :
    (sample i points (boundStep step) j).1 ≤ (sample i points (boundStep step) k).1 :=
  Stepwise.multiple_le hstep (not_boundStep_lt step) hjk

/-- Where the step is not finite there is one sample at most. -/
theorem sampleCount_le_one (hstep : Quantity.isFinite (boundStep step) = false) :
    sampleCount length step ≤ 1 := by
  rw [sampleCount]
  by_cases hfits : (Conversion.toInt64 (lastSample length (boundStep step))).Fits
  · rw [hfits.result?_eq]
    have hzero : Quantity.toInt (lastSample length (boundStep step)) = 0 :=
      Stepwise.toInt_floor_of_not_isFinite hstep
    change (Quantity.toInt (lastSample length (boundStep step)) + 1).toNat ≤ 1
    omega
  · rw [Conversion.result?_eq_none hfits]
    exact Nat.zero_le 1

/-- What is before a time is so for all samples up to some one. -/
theorem pairwise_samples (i : Interpolation) (length step : α) (points : List (Point α)) (t : α) :
    (samples i length step points).Pairwise fun a b =>
      decide (b.1 ≤ t) = true → decide (a.1 ≤ t) = true := by
  by_cases hempty : points = [] ∨ length < 0.0
  · have hsamples : samples i length step points = [] := by
      rw [samples]
      exact if_pos (by simpa using hempty)
    rw [hsamples]
    exact .nil
  obtain ⟨hpoints, hlength⟩ := not_or.mp hempty
  rw [samples_eq_map hpoints hlength, List.pairwise_map]
  cases hstep : Quantity.isFinite (boundStep step) with
  | true =>
      refine List.pairwise_lt_range.imp fun {j k} hjk hk => ?_
      rw [decide_eq_true_eq] at hk ⊢
      exact Stepwise.le_trans (sample_time_le hstep hjk.le) hk
  | false =>
      have hcount : sampleCount length step ≤ 1 := sampleCount_le_one hstep
      refine List.pairwise_lt_range.imp_of_mem fun {j k} _ hk hjk => ?_
      have hk := List.mem_range.mp hk
      omega

/-! ### Sparse and dense control changes -/

omit [Stepwise α] in
theorem inForce_map (controller channel : Int) (t : α) (settings : List (Setting α)) :
    ControlChange.inForce t (settings.map (toControl controller channel)) =
      settled none (settings.filter fun s => s.1 ≤ t) := by
  rw [ControlChange.inForce, List.filter_map, List.getLast?_map, Option.map_map, settled,
    Option.or_none]
  rfl

omit [Quantity α] [Stepwise α] in
theorem withoutRepeats_map (controller channel : Int) (settings : List (Setting α)) :
    ControlChange.withoutRepeats (settings.map (toControl controller channel)) =
      (changes none settings).map (toControl controller channel) := by
  have hzip : (settings.map (toControl controller channel)).zip
      (none :: (settings.map (toControl controller channel)).map some) =
        (settings.zip (none :: settings.map some)).map
          (Prod.map (toControl controller channel) (Option.map (toControl controller channel))) := by
    rw [← List.zip_map, List.map_cons, Option.map_none, List.map_map, List.map_map]
    rfl
  have hchanges := changes_eq_filter none settings
  rw [ControlChange.withoutRepeats, hzip, List.filter_map, List.map_map]
  rw [Option.map_none] at hchanges
  rw [hchanges, List.map_map]
  congr 1
  refine List.filter_congr fun q _ => ?_
  rw [Function.comp_apply, Prod.map_snd, Option.map_map]
  rfl

omit [Quantity α] [Stepwise α] in
/-- Of the elements of a range that a test accepts the last one is not before any other. -/
theorem exists_getLast?_filter_range {β : Type} {f : Nat → β} {p : β → Bool} {n : Nat} (hk : k < n)
    (hp : p (f k) = true) : ∃ j, k ≤ j ∧ j < n ∧ p (f j) = true ∧
      (((List.range n).map f).filter p).getLast? = some (f j) := by
  induction n with
  | zero => exact absurd hk (Nat.not_lt_zero k)
  | succ n ih =>
      rw [List.range_succ, List.map_append, List.filter_append, List.map_singleton]
      by_cases hlast : p (f n) = true
      · refine ⟨n, by omega, by omega, hlast, ?_⟩
        rw [List.filter_cons_of_pos hlast]
        simp
      · have hkn : k < n := by
          refine lt_of_le_of_ne (by omega) ?_
          rintro rfl
          exact hlast hp
        obtain ⟨j, hkj, hjn, hpj, hget⟩ := ih hkn
        refine ⟨j, hkj, by omega, hpj, ?_⟩
        rw [List.filter_cons_of_neg hlast, List.filter_nil, List.append_nil, hget]

/-- The value in force at a sample is the one of the curve. -/
theorem inForce_samples (hpoints : points ≠ []) (hlength : ¬length < 0.0)
    (hstep : Quantity.isFinite (boundStep step) = true) (hk : k < sampleCount length step) :
    settled none ((samples i length step points).filter fun s =>
        s.1 ≤ Quantity.ofInt k * boundStep step) =
      some (Midi.ofQuantity (valueAt i (Quantity.ofInt k * boundStep step) points)) := by
  rw [samples_eq_map hpoints hlength]
  have hself : (sample i points (boundStep step) k).1 ≤ Quantity.ofInt k * boundStep step :=
    sample_time_le hstep le_rfl
  obtain ⟨j, hkj, -, hj, hget⟩ := exists_getLast?_filter_range
    (f := fun (k : Nat) => sample i points (boundStep step) k)
    (p := fun s => decide (s.1 ≤ Quantity.ofInt k * boundStep step)) hk (decide_eq_true hself)
  rw [settled, hget, Option.or_none, Option.map_some]
  rw [decide_eq_true_eq] at hj
  have heq : Quantity.ofInt (j : Int) * boundStep step = Quantity.ofInt k * boundStep step :=
    Stepwise.multiple_antisymm hstep (not_boundStep_lt step) hj
      (Stepwise.multiple_le hstep (not_boundStep_lt step) hkj)
  rw [sample, heq]

/-- Nothing is in force at the first sample where there are too many of them, or where the step is
not finite. -/
theorem filter_first_eq_nil (hpoints : points ≠ []) (hlength : ¬length < 0.0)
    (h : ¬((Conversion.toInt64 (lastSample length (boundStep step))).Fits ∧
      Quantity.isFinite (boundStep step) = true)) :
    (samples i length step points).filter (fun s => s.1 ≤ Quantity.ofInt 0 * boundStep step) =
      [] := by
  by_cases hfits : (Conversion.toInt64 (lastSample length (boundStep step))).Fits
  · have hstep : Quantity.isFinite (boundStep step) = false := by simpa [hfits] using h
    exact List.filter_eq_nil_iff.mpr fun s _ hs =>
      Stepwise.not_le_zero_mul hstep (of_decide_eq_true hs)
  · rw [samples_eq_map hpoints hlength, sampleCount, Conversion.result?_eq_none hfits]
    rfl

/-- The sparse control changes of a curve are the dense ones without repetitions: no neighbours are
equal, and the same value is in force at every time. That is the value of the curve at each sample,
exactly if the index of the last sample fits into a word and the step is finite. -/
theorem sampledControl_sparse (hpoints : points ≠ []) (hlength : ¬length < 0.0)
    (i : Interpolation) (controller channel : Int) (step : α) :
    let dense := sampledControl i controller length channel step false points
    let sparse := sampledControl i controller length channel step true points
    let last := lastSample length (boundStep step)
    sparse = ControlChange.withoutRepeats dense ∧
      sparse.IsChain (fun a b => a.value ≠ b.value) ∧
      (∀ t, ControlChange.inForce t sparse = ControlChange.inForce t dense) ∧
      ((∀ k : Nat, k ≤ (Quantity.toInt last).toNat →
          ControlChange.inForce (Quantity.ofInt k * boundStep step) dense =
            some (Midi.ofQuantity (valueAt i (Quantity.ofInt k * boundStep step) points))) ↔
        (Conversion.toInt64 last).Fits ∧ Quantity.isFinite (boundStep step) = true) := by
  intro dense sparse last
  have hdense : dense = (samples i length step points).map (toControl controller channel) := rfl
  have hsparse : sparse = (changes none (samples i length step points)).map
    (toControl controller channel) := rfl
  refine ⟨?_, ?_, fun t => ?_, ?_⟩
  · rw [hdense, hsparse, withoutRepeats_map]
  · rw [hsparse, List.isChain_map]
    exact (isChain_changes none _).1
  · rw [hdense, hsparse, inForce_map, inForce_map]
    exact settled_filter_changes (pairwise_samples i length step points t) none
  · rw [hdense]
    simp only [inForce_map]
    constructor
    · intro hvalues
      by_contra h
      have hfirst := hvalues 0 (Nat.zero_le _)
      rw [Nat.cast_zero, filter_first_eq_nil hpoints hlength h] at hfirst
      exact Option.some_ne_none _ hfirst.symm
    · rintro ⟨hfits, hstep⟩ k hk
      refine inForce_samples hpoints hlength hstep ?_
      have hnonneg : 0 ≤ Quantity.toInt last :=
        Stepwise.toInt_floor_nonneg hlength hstep (not_boundStep_lt step)
      have hcount : sampleCount length step = (Quantity.toInt last + 1).toNat := by
        rw [sampleCount, hfits.result?_eq]
        rfl
      omega

/-- A rise from end to end of the range of values within a quarter note. -/
def ramp : List (Point Float) := [⟨0.0, 0.0⟩, ⟨1.0, 127.0⟩]

theorem ramp_sparse :
    sampledControl .linear 11 1.0 1 0.001 true ramp =
        ControlChange.withoutRepeats (sampledControl .linear 11 1.0 1 0.001 false ramp) ∧
      ∀ k : Nat, k ≤ 16 → ControlChange.inForce (Quantity.ofInt k * 0.0625)
          (sampledControl .linear 11 1.0 1 0.001 false ramp) =
        some (Midi.ofQuantity (valueAt .linear (Quantity.ofInt k * 0.0625) ramp)) := by
  have hstep : boundStep (0.001 : Float) = 0.0625 := by decide +kernel
  have hlast : Quantity.toInt (lastSample (1.0 : Float) 0.0625) = 16 := by decide +kernel
  have hramp : ramp ≠ [] := by simp [ramp]
  have hlength : ¬(1.0 : Float) < 0.0 := by decide +kernel
  obtain ⟨hsparse, -, -, hvalues⟩ := sampledControl_sparse hramp hlength .linear 11 1 0.001
  rw [hstep, hlast] at hvalues
  exact ⟨hsparse, hvalues.mpr (by decide +kernel)⟩

end Curve

end MusicPart
