import MusicPart.Proofs.Expansion
import MusicPart.Proofs.HeldCurves
import MusicPart.Proofs.TimeOrder

/-!
# Clean curves

Cleaning leaves one point for each time to which a finite point is brought, the last one of those
that come there together: also points far apart may come together at the ends of a selection. There
is only one such list, and cleaned again it stays.
-/

namespace MusicPart

namespace Quantity

/-- The greatest value of a controller is a finite number above zero. -/
class Controlled (α : Type) [Quantity α] : Prop extends Valued α where
  zero_lt_largest : (0.0 : α) < 127.0
  isFinite_largest : isFinite (127.0 : α) = true

instance : Controlled Float where
  zero_lt_largest := by decide +kernel
  isFinite_largest := by decide +kernel

instance : Controlled Rat where
  zero_lt_largest := by norm_num
  isFinite_largest := rfl

variable {α : Type} [Quantity α]

/-- A finite quantity stays finite, also where the upper bound is not. -/
theorem isFinite_clamp [Valued α] {x low high : α} (hx : isFinite x = true)
    (hlow : isFinite low = true) (hbounds : ¬high < low) :
    isFinite (clamp x low high) = true := by
  rw [clamp]
  split_ifs with hbelow habove
  · exact hlow
  · exact Valued.isFinite_of_not_lt (Lawful.isNumber_of_lt habove).1 hlow hx hbounds
      (Lawful.not_lt_of_lt habove)
  · exact hx

theorem clamp_clamp [Lawful α] {x low high : α} (hbounds : ¬high < low) :
    clamp (clamp x low high) low high = clamp x low high :=
  clamp_of_not_lt (clamp_within hbounds).1 (clamp_within hbounds).2

end Quantity

namespace Curve

open Quantity (Controlled IsNumber Lawful Ordered Valued)

variable {α : Type} [Quantity α] {length t : α} {p q : Point α} {ps cleaned : List (Point α)}

/-! ### Points brought within bounds -/

def isFinitePoint (p : Point α) : Bool := Quantity.isFinite p.time && Quantity.isFinite p.value

/-- A point with its time brought into a selection and its value to those of a controller. -/
def bound (length : α) (p : Point α) : Point α :=
  ⟨Quantity.clamp p.time 0.0 (Quantity.greater 0.0 length), Quantity.clamp p.value 0.0 127.0⟩

/-- The finite points, brought within bounds. -/
def boundAll (length : α) (ps : List (Point α)) : List (Point α) :=
  (ps.filter isFinitePoint).map (bound length)

theorem bounded?_eq (length : α) (p : Point α) :
    bounded? length p = if isFinitePoint p then some (bound length p) else none := rfl

theorem filterMap_bounded? (length : α) (ps : List (Point α)) :
    ps.filterMap (bounded? length) = boundAll length ps := by
  induction ps with
  | nil => rfl
  | cons p ps ih =>
      rw [boundAll, List.filterMap_cons, List.filter_cons, bounded?_eq, ih]
      split
      · rename_i h
        rw [if_neg (by simpa using h), boundAll]
      · rename_i b h
        obtain ⟨hfinite, hb⟩ := Option.ite_none_right_eq_some.mp h
        rw [if_pos hfinite, List.map_cons, Option.some_inj.mp hb, boundAll]

section Bounds

/-- A finite point within bounds. -/
structure IsBound (length : α) (p : Point α) : Prop where
  isFinite : isFinitePoint p = true
  bound_eq : bound length p = p
  time : (0.0 : α) ≤ p.time ∧ p.time ≤ Quantity.greater 0.0 length
  value : (0.0 : α) ≤ p.value ∧ p.value ≤ 127.0

theorem boundAll_eq_self (h : ∀ p ∈ ps, IsBound length p) : boundAll length ps = ps := by
  rw [boundAll, List.filter_eq_self.mpr fun p hp => (h p hp).isFinite]
  exact (List.map_congr_left fun p hp => (h p hp).bound_eq).trans (List.map_id ps)

variable [Controlled α]

theorem not_greater_lt_zero (length : α) : ¬Quantity.greater 0.0 length < 0.0 := by
  rw [Quantity.greater]
  split
  · rename_i h
    exact Lawful.not_lt_of_lt h
  · exact fun h => Lawful.not_lt_of_lt h h

theorem isNumber_zero : IsNumber (0.0 : α) := Lawful.isNumber_of_isFinite Lawful.isFinite_zero

theorem IsBound.isNumber_time (h : IsBound length p) : IsNumber p.time :=
  (Ordered.le_iff.mp h.time.1).2.1

theorem isBound_bound (h : isFinitePoint p = true) (length : α) :
    IsBound length (bound length p) := by
  obtain ⟨htime, hvalue⟩ : Quantity.isFinite p.time = true ∧ Quantity.isFinite p.value = true := by
    simpa [isFinitePoint] using h
  have hend := not_greater_lt_zero length
  have hlargest : ¬(127.0 : α) < 0.0 := Lawful.not_lt_of_lt Controlled.zero_lt_largest
  have htime' := Quantity.isFinite_clamp htime Lawful.isFinite_zero hend
  have hvalue' := Quantity.isFinite_clamp hvalue Lawful.isFinite_zero hlargest
  have htimeNumber := Lawful.isNumber_of_isFinite htime'
  have hvalueNumber := Lawful.isNumber_of_isFinite hvalue'
  have hendNumber : IsNumber (Quantity.greater 0.0 length) := by
    rw [Quantity.greater]
    split
    · rename_i hlt
      exact (Lawful.isNumber_of_lt hlt).2
    · exact isNumber_zero
  have hlargestNumber : IsNumber (127.0 : α) :=
    Lawful.isNumber_of_isFinite Controlled.isFinite_largest
  constructor
  case isFinite => simp [isFinitePoint, bound, htime', hvalue']
  case bound_eq => simp only [bound, Quantity.clamp_clamp hend, Quantity.clamp_clamp hlargest]
  case time =>
    obtain ⟨hlow, hhigh⟩ := Quantity.clamp_within (x := p.time) hend
    exact ⟨Ordered.le_iff.mpr ⟨isNumber_zero, htimeNumber, hlow⟩,
      Ordered.le_iff.mpr ⟨htimeNumber, hendNumber, hhigh⟩⟩
  case value =>
    obtain ⟨hlow, hhigh⟩ := Quantity.clamp_within (x := p.value) hlargest
    exact ⟨Ordered.le_iff.mpr ⟨isNumber_zero, hvalueNumber, hlow⟩,
      Ordered.le_iff.mpr ⟨hvalueNumber, hlargestNumber, hhigh⟩⟩

theorem isBound_of_mem_boundAll (h : p ∈ boundAll length ps) : IsBound length p := by
  obtain ⟨q, hq, rfl⟩ := List.mem_map.mp h
  exact isBound_bound (List.mem_filter.mp hq).2 length

end Bounds

/-! ### The last point of each time -/

section Last

variable [Lawful α]

omit [Lawful α] in
theorem lastOfEach_sublist (ps : List (Point α)) : (lastOfEach ps).Sublist ps := by
  fun_induction lastOfEach ps with
  | case1 => exact .slnil
  | case2 p => exact .refl _
  | case3 p q ps h ih => exact ih.cons p
  | case4 p q ps h ih => exact ih.cons_cons p

/-- Neighbours in order that are not at one time leave a gap before all that comes later. -/
theorem lt_of_not_beq (hnumber : ∀ r ∈ p :: q :: ps, IsNumber r.time)
    (hsorted : (p :: q :: ps).Pairwise fun a b => ¬b.time < a.time)
    (h : ¬(p.time == q.time) = true) : ∀ r ∈ q :: ps, p.time < r.time := by
  obtain ⟨hp, hps⟩ := List.pairwise_cons.mp hsorted
  have hpn := hnumber p List.mem_cons_self
  have hqn := hnumber q (by simp)
  have hlt : p.time < q.time := by
    by_contra hnot
    exact h ((Lawful.beq_iff hpn hqn).mpr ⟨hnot, hp q List.mem_cons_self⟩)
  refine List.forall_mem_cons.mpr ⟨hlt, fun r hr => ?_⟩
  have hrn := hnumber r (by simp [hr])
  by_contra hnot
  exact Lawful.not_lt_trans hrn ((List.pairwise_cons.mp hps).1 r hr) hnot hlt

theorem pairwise_lastOfEach (hnumber : ∀ p ∈ ps, IsNumber p.time)
    (hsorted : ps.Pairwise fun a b => ¬b.time < a.time) :
    (lastOfEach ps).Pairwise fun a b => a.time < b.time := by
  fun_induction lastOfEach ps with
  | case1 => exact .nil
  | case2 p => exact List.pairwise_singleton _ p
  | case3 p q ps h ih =>
      exact ih (fun r hr => hnumber r (List.mem_cons_of_mem p hr)) (List.pairwise_cons.mp hsorted).2
  | case4 p q ps h ih =>
      refine List.pairwise_cons.mpr ⟨fun r hr => ?_, ?_⟩
      · exact lt_of_not_beq hnumber hsorted h r ((lastOfEach_sublist _).subset hr)
      · exact ih (fun r hr => hnumber r (List.mem_cons_of_mem p hr))
          (List.pairwise_cons.mp hsorted).2

theorem filter_eq_nil_of_lt (ht : IsNumber t) (hnumber : ∀ r ∈ p :: ps, IsNumber r.time)
    (hlt : ∀ r ∈ ps, p.time < r.time) (hp : (t == p.time) = true) :
    ps.filter (fun p => t == p.time) = [] := by
  refine List.filter_eq_nil_iff.mpr fun r hr htr => ?_
  have hrn := hnumber r (List.mem_cons_of_mem p hr)
  have hbefore := ((Lawful.beq_iff ht (hnumber p List.mem_cons_self)).mp hp).2
  have hafter := ((Lawful.beq_iff ht hrn).mp htr).1
  exact Lawful.not_lt_trans ht hafter hbefore (hlt r hr)

/-- Of the points at one time the last stays. -/
theorem filter_lastOfEach (ht : IsNumber t) (hnumber : ∀ p ∈ ps, IsNumber p.time)
    (hsorted : ps.Pairwise fun a b => ¬b.time < a.time) :
    (lastOfEach ps).filter (fun p => t == p.time) =
      (ps.filter fun p => t == p.time).getLast?.toList := by
  have hpos {p : Point α} (hp : (t == p.time) = true) (ps : List (Point α)) :
      (p :: ps).filter (fun p => t == p.time) = p :: ps.filter fun p => t == p.time :=
    List.filter_cons_of_pos hp
  have hneg {p : Point α} (hp : ¬(t == p.time) = true) (ps : List (Point α)) :
      (p :: ps).filter (fun p => t == p.time) = ps.filter fun p => t == p.time :=
    List.filter_cons_of_neg hp
  fun_induction lastOfEach ps with
  | case1 => rfl
  | case2 p =>
      by_cases hp : (t == p.time) = true
      · rw [hpos hp]
        rfl
      · rw [hneg hp]
        rfl
  | case3 p q ps h ih =>
      rw [ih (fun r hr => hnumber r (List.mem_cons_of_mem p hr)) (List.pairwise_cons.mp hsorted).2]
      by_cases hp : (t == p.time) = true
      · -- The point that is left out is followed by one at the same time.
        have hq : (t == q.time) = true := by
          rw [← Lawful.beq_congr ht (hnumber p (by simp)) (hnumber q (by simp)) h, hp]
        rw [hpos hp, hpos hq, List.getLast?_cons_cons]
      · rw [hneg hp]
  | case4 p q ps h ih =>
      have hrest := ih (fun r hr => hnumber r (List.mem_cons_of_mem p hr))
        (List.pairwise_cons.mp hsorted).2
      by_cases hp : (t == p.time) = true
      · have hnone : (q :: ps).filter (fun p => t == p.time) = [] :=
          filter_eq_nil_of_lt ht hnumber (lt_of_not_beq hnumber hsorted h) hp
        rw [hpos hp, hpos hp, hrest, hnone]
        rfl
      · rw [hneg hp, hneg hp, hrest]

end Last

/-! ### Cleaning -/

/-- The points in order of time, within bounds, and at each time the last of those that are brought
there, if any are. -/
structure IsClean (length : α) (ps cleaned : List (Point α)) : Prop where
  placed : Placed (Quantity.greater 0.0 length) cleaned
  value : ∀ p ∈ cleaned, (0.0 : α) ≤ p.value ∧ p.value ≤ 127.0
  last {t : α} : IsNumber t → cleaned.filter (fun p => t == p.time) =
    ((boundAll length ps).filter fun p => t == p.time).getLast?.toList

theorem clean_sublist (length : α) (ps : List (Point α)) :
    (clean length ps).Sublist (sortPoints (boundAll length ps)) := by
  rw [clean, filterMap_bounded?]
  exact lastOfEach_sublist _

variable [Controlled α]

theorem isBound_of_mem_clean (h : p ∈ clean length ps) : IsBound length p := by
  have hmem : p ∈ boundAll length ps :=
    (List.mergeSort_perm _ _).mem_iff.mp ((clean_sublist length ps).subset h)
  exact isBound_of_mem_boundAll hmem

theorem isClean_clean (length : α) (ps : List (Point α)) : IsClean length ps (clean length ps) := by
  have hnumber : ∀ p ∈ boundAll length ps, IsNumber p.time := fun p hp =>
    (isBound_of_mem_boundAll hp).isNumber_time
  have hsorted : SortedByTime Point.time (boundAll length ps) (sortPoints (boundAll length ps)) :=
    sortedByTime_mergeSort hnumber
  have hnumber' : ∀ p ∈ sortPoints (boundAll length ps), IsNumber p.time := fun p hp =>
    hnumber p (hsorted.perm.mem_iff.mp hp)
  have hclean : clean length ps = lastOfEach (sortPoints (boundAll length ps)) := by
    rw [clean, filterMap_bounded?]
  constructor
  case placed =>
    refine ⟨?_, fun p hp => (isBound_of_mem_clean hp).time⟩
    rw [hclean]
    exact pairwise_lastOfEach hnumber' hsorted.ordered
  case value => exact fun p hp => (isBound_of_mem_clean hp).value
  case last =>
    intro t ht
    rw [hclean, filter_lastOfEach ht hnumber' hsorted.ordered, hsorted.stable ht]

/-- There is one list at most with the points that cleaning leaves. -/
theorem IsClean.unique {cleaned' : List (Point α)} (h : IsClean length ps cleaned)
    (h' : IsClean length ps cleaned') : cleaned = cleaned' := by
  have hnumber {c : List (Point α)} (hc : IsClean length ps c) :
      ∀ p ∈ c, isTimedBy Point.time p = true := fun p hp =>
    (Ordered.le_iff.mp (hc.placed.within p hp).1).2.1
  have hsorted {c : List (Point α)} (hc : IsClean length ps c) :
      c.Pairwise fun a b => notLaterBy Point.time a b = true :=
    hc.placed.increasing.imp fun hlt => notLaterBy_iff.mpr (Lawful.not_lt_of_lt hlt)
  refine (ordersOn_notLaterBy Point.time).eq_of_filter_ties (hnumber h) (hnumber h') (hsorted h)
    (hsorted h') fun a ha => ?_
  rw [List.filter_congr fun p hp => ties_notLaterBy ha (hnumber h p hp),
    List.filter_congr fun p hp => ties_notLaterBy ha (hnumber h' p hp), h.last ha, h'.last ha]

theorem clean_clean (length : α) (ps : List (Point α)) :
    clean length (clean length ps) = clean length ps := by
  have h := isClean_clean length ps
  refine (isClean_clean length (clean length ps)).unique ⟨h.placed, h.value, fun {t} ht => ?_⟩
  rw [boundAll_eq_self fun p => isBound_of_mem_clean, h.last ht]
  cases ((boundAll length ps).filter fun p => t == p.time).getLast? <;> rfl

/-- Cleaning leaves the points of a selection in order of time, and at each time to which finite
points are brought the last one of them. No other list is so, and cleaning again changes nothing. -/
theorem isClean_iff (length : α) (ps : List (Point α)) :
    (∀ cleaned, IsClean length ps cleaned ↔ cleaned = clean length ps) ∧
      clean length (clean length ps) = clean length ps := by
  refine ⟨fun cleaned => ⟨fun h => h.unique (isClean_clean length ps), ?_⟩, clean_clean length ps⟩
  rintro rfl
  exact isClean_clean length ps

/-- Points out of order, three of them beyond the end and one without a finite value. -/
def scattered : List (Point Float) :=
  [⟨5.0, 200.0⟩, ⟨1.0, 20.0⟩, ⟨9.0, 64.0⟩, ⟨1.0, 140.0⟩, ⟨12.0, 1.0 / 0.0⟩]

theorem scattered_clean :
    (clean 4.0 scattered).filter (fun p => 4.0 == p.time) = [⟨4.0, 64.0⟩] ∧
      (clean 4.0 scattered).filter (fun p => 1.0 == p.time) = [⟨1.0, 127.0⟩] ∧
      clean 4.0 (clean 4.0 scattered) = clean 4.0 scattered := by
  obtain ⟨hclean, hagain⟩ := isClean_iff (4.0 : Float) scattered
  have h := (hclean _).mpr rfl
  refine ⟨?_, ?_, hagain⟩
  · exact (h.last (Lawful.isNumber_of_isFinite (by decide))).trans (by rfl)
  · exact (h.last (Lawful.isNumber_of_isFinite (by decide))).trans (by rfl)

end Curve

end MusicPart
