import MusicPart.Proofs.Differences
import MusicPart.Proofs.Sampling

/-!
# Held curves

A held curve has the value of its last breakpoint so far, and the first one's before that. Its
control changes come from the breakpoints without a look at the times between, and yet the value
that is in force is the one of the curve at every time.
-/

namespace MusicPart.Curve

variable {α : Type} [Quantity α]

open Quantity (Lawful Ordered)

/-- Breakpoints in order of time, within a selection. -/
structure Placed (length : α) (points : List (Point α)) : Prop where
  increasing : points.Pairwise fun p q => p.time < q.time
  within : ∀ p ∈ points, (0.0 : α) ≤ p.time ∧ p.time ≤ length

/-! ### Settings within a selection -/

/-- Settings within a selection are emitted at their own times. -/
theorem emit_of_within [Ordered α] {length : α} {settings : List (Setting α)}
    (h : ∀ s ∈ settings, (0.0 : α) ≤ s.1 ∧ s.1 ≤ length) (controller channel : Int) :
    emit controller channel length settings =
      (changes none settings).map (toControl controller channel) := by
  refine List.map_congr_left fun s hs => ?_
  obtain ⟨hlow, hhigh⟩ := h s ((changes_sublist none settings).subset hs)
  have hend : ¬nonnegative length < s.1 := by
    rw [nonnegative]
    split
    · exact Ordered.not_lt_of_le hhigh
    · rename_i hlength
      exact Lawful.not_lt_trans (Ordered.le_iff.mp hhigh).2.1 (Ordered.not_lt_of_le hhigh) hlength
  rw [Quantity.clamp_of_not_lt (Ordered.not_lt_of_le hlow) hend]

/-! ### Values -/

/-- The last breakpoint so far, or else the first one. -/
def heldPoint (t : α) (p : Point α) (rest : List (Point α)) : Point α :=
  (rest.filter fun q => q.time ≤ t).getLast?.getD p

theorem heldPoint_of_le {t : α} {p q : Point α} {rest : List (Point α)} (h : q.time ≤ t) :
    heldPoint t p (q :: rest) = heldPoint t q rest := by
  have hfilter : (q :: rest).filter (fun q => q.time ≤ t) = q :: rest.filter fun q => q.time ≤ t :=
    List.filter_cons_of_pos (decide_eq_true h)
  rw [heldPoint, hfilter, List.getLast?_cons, Option.getD_some, heldPoint]

theorem heldPoint_of_not_le {t : α} {p : Point α} {rest : List (Point α)}
    (h : ∀ q ∈ rest, ¬q.time ≤ t) : heldPoint t p rest = p := by
  have hnone : (rest.filter fun q => q.time ≤ t) = [] :=
    List.filter_eq_nil_iff.mpr fun q hq hle => h q hq (of_decide_eq_true hle)
  rw [heldPoint, hnone, List.getLast?_nil, Option.getD_none]

/-- The first breakpoint is in force before its time, too. -/
theorem heldPoint_self (t : α) (p : Point α) (rest : List (Point α)) :
    heldPoint t p (p :: rest) = heldPoint t p rest := by
  by_cases h : p.time ≤ t
  · exact heldPoint_of_le h
  · have hfilter : (p :: rest).filter (fun q => q.time ≤ t) = rest.filter fun q => q.time ≤ t :=
      List.filter_cons_of_neg (by simpa using h)
    rw [heldPoint, hfilter, heldPoint]

theorem valueFrom_hold [Ordered α] {p : Point α} {rest : List (Point α)}
    (h : (p :: rest).Pairwise fun p q => p.time < q.time) (t before : α) :
    valueFrom .hold t before p rest = (heldPoint t p rest).value := by
  induction rest generalizing before p with
  | nil => rfl
  | cons q rest ih =>
      have htail := (List.pairwise_cons.mp h).2
      rw [valueFrom]
      split
      · rename_i hq
        rw [ih htail p.value, heldPoint_of_le hq]
      · rename_i hq
        have hlate : ∀ r ∈ q :: rest, ¬r.time ≤ t := by
          refine List.forall_mem_cons.mpr ⟨hq, fun r hr hle => hq ?_⟩
          exact Ordered.le_trans (Ordered.le_of_lt ((List.pairwise_cons.mp htail).1 r hr)) hle
        rw [heldPoint_of_not_le hlate, between]

theorem valueAt_hold [Ordered α] {p : Point α} {rest : List (Point α)}
    (h : (p :: rest).Pairwise fun p q => p.time < q.time) (t : α) :
    valueAt .hold t (p :: rest) = (heldPoint t p rest).value := by
  rw [valueAt]
  split
  · rename_i hp
    have hlate : ∀ q ∈ rest, ¬q.time ≤ t := fun q hq hle =>
      Ordered.not_lt_of_le (Ordered.le_trans hle hp) ((List.pairwise_cons.mp h).1 q hq)
    rw [heldPoint_of_not_le hlate]
  · exact valueFrom_hold h t p.value

/-! ### What is in force -/

theorem holdSettings_cons (p : Point α) (rest : List (Point α)) : holdSettings (p :: rest) =
    (0.0, Midi.ofQuantity p.value) ::
      (p :: rest).map fun q => (q.time, Midi.ofQuantity q.value) := rfl

theorem settled_holdSettings {t : α} (ht : (0.0 : α) ≤ t) (p : Point α) (rest : List (Point α)) :
    settled none ((holdSettings (p :: rest)).filter fun s => s.1 ≤ t) =
      some (Midi.ofQuantity (heldPoint t p rest).value) := by
  have hfilter : (holdSettings (p :: rest)).filter (fun s => s.1 ≤ t) =
      (0.0, Midi.ofQuantity p.value) ::
        ((p :: rest).map fun q => (q.time, Midi.ofQuantity q.value)).filter fun s => s.1 ≤ t :=
    List.filter_cons_of_pos (decide_eq_true ht)
  have hlast : ((p :: rest).filter fun q => q.time ≤ t).getLast?.getD p = heldPoint t p rest :=
    heldPoint_self t p rest
  rw [hfilter, settled_cons, List.filter_map, settled, List.getLast?_map, Option.map_map, ← hlast]
  change ((((p :: rest).filter fun q => q.time ≤ t).getLast?).map _).or _ = _
  cases ((p :: rest).filter fun q => q.time ≤ t).getLast? <;> rfl

/-- The control changes of a held curve set its value at every time. They come in order of time
from the beginning on, and each one changes the value. -/
theorem inForce_holdControl [Ordered α] {length : α} {points : List (Point α)}
    (hpoints : points ≠ []) (hplaced : Placed length points) (controller channel : Int) :
    let es := holdControl controller length channel points
    (∀ t, (0.0 : α) ≤ t → ControlChange.inForce t es =
        some (Midi.ofQuantity (valueAt .hold t points))) ∧
      es.Pairwise (fun a b => a.time ≤ b.time) ∧
      es.head?.map (·.time) = some 0.0 ∧
      es.IsChain (fun a b => a.value ≠ b.value) := by
  intro es
  obtain ⟨p, rest, rfl⟩ := List.exists_cons_of_ne_nil hpoints
  have hzero : (0.0 : α) ≤ 0.0 := by
    have hnumber := (Ordered.le_iff.mp (hplaced.within p List.mem_cons_self).1).1
    exact Ordered.le_iff.mpr ⟨hnumber, hnumber, fun h => Lawful.not_lt_of_lt h h⟩
  have hwithin : ∀ s ∈ holdSettings (p :: rest), (0.0 : α) ≤ s.1 ∧ s.1 ≤ length := by
    rw [holdSettings_cons, List.forall_mem_cons, List.forall_mem_map]
    obtain ⟨hlow, hhigh⟩ := hplaced.within p List.mem_cons_self
    exact ⟨⟨hzero, Ordered.le_trans hlow hhigh⟩, hplaced.within⟩
  have htimes : (holdSettings (p :: rest)).Pairwise fun a b => a.1 ≤ b.1 := by
    rw [holdSettings_cons, List.pairwise_cons, List.forall_mem_map, List.pairwise_map]
    exact ⟨fun q hq => (hplaced.within q hq).1, hplaced.increasing.imp Ordered.le_of_lt⟩
  have hes : es = (changes none (holdSettings (p :: rest))).map (toControl controller channel) :=
    emit_of_within hwithin controller channel
  rw [hes]
  refine ⟨fun t ht => ?_, ?_, ?_, ?_⟩
  · have hreached : (holdSettings (p :: rest)).Pairwise fun a b =>
        decide (b.1 ≤ t) = true → decide (a.1 ≤ t) = true :=
      htimes.imp fun hab hb => decide_eq_true (Ordered.le_trans hab (of_decide_eq_true hb))
    rw [inForce_map, settled_filter_changes hreached, settled_holdSettings ht,
      valueAt_hold hplaced.increasing]
  · rw [List.pairwise_map]
    exact htimes.sublist (changes_sublist _ _)
  · rfl
  · rw [List.isChain_map]
    exact (isChain_changes none _).1

/-- A rise that begins late and whose second value is rounded to the first one. -/
def lateRise : List (Point Float) := [⟨0.5, 64.0⟩, ⟨2.0, 64.2⟩, ⟨3.0, 100.0⟩]

theorem lateRise_held : Placed 4.0 lateRise ∧ (∀ t : Float, 0.0 ≤ t →
    ControlChange.inForce t (holdControl 11 4.0 1 lateRise) =
      some (Midi.ofQuantity (valueAt .hold t lateRise))) := by
  have hplaced : Placed 4.0 lateRise := ⟨by decide +kernel, by decide +kernel⟩
  exact ⟨hplaced, (inForce_holdControl (by simp [lateRise]) hplaced 11 1).1⟩

end MusicPart.Curve
