import MusicPart.Proofs.Laws
import MusicPart.Proofs.StableSort

/-!
# Order of time

Notes, points and markers are sorted by their times in one way. It puts what comes at numbers in
order, and what comes at one time stays as it stood.
-/

namespace MusicPart

open Quantity (IsNumber Lawful)

variable {α β : Type} [Quantity α] {time : β → α}

/-! ### Equal numbers -/

/-- What equals one of two equal numbers equals the other one. -/
theorem Quantity.Lawful.beq_congr [Lawful α] {t a b : α} (ht : IsNumber t) (ha : IsNumber a)
    (hb : IsNumber b) (h : (a == b) = true) : (t == a) = (t == b) := by
  obtain ⟨hab, hba⟩ := (Lawful.beq_iff ha hb).mp h
  rw [Bool.eq_iff_iff, Lawful.beq_iff ht ha, Lawful.beq_iff ht hb]
  constructor
  · rintro ⟨hta, hat⟩
    exact ⟨Lawful.not_lt_trans ha hab hta, Lawful.not_lt_trans ha hat hba⟩
  · rintro ⟨htb, hbt⟩
    exact ⟨Lawful.not_lt_trans hb hba htb, Lawful.not_lt_trans hb hbt hab⟩

/-! ### Sorting -/

/-- The time of a member is a number. -/
def isTimedBy (time : β → α) (a : β) : Bool := time a == time a

def notLaterBy (time : β → α) (a b : β) : Bool := !decide (time b < time a)

/-- The same members in order of time, those at one time as they stood. -/
structure SortedByTime (time : β → α) (xs sorted : List β) : Prop where
  perm : sorted.Perm xs
  ordered : sorted.Pairwise fun a b => ¬time b < time a
  stable {t : α} : IsNumber t →
    sorted.filter (fun a => t == time a) = xs.filter fun a => t == time a

theorem notLaterBy_iff {a b : β} : notLaterBy time a b = true ↔ ¬time b < time a := by
  simp [notLaterBy]

variable [Lawful α]

theorem ordersOn_notLaterBy (time : β → α) : OrdersOn (isTimedBy time) (notLaterBy time) where
  total {a b} _ _ := by
    simp only [notLaterBy_iff]
    by_cases hba : time b < time a
    · exact .inr (Lawful.not_lt_of_lt hba)
    · exact .inl hba
  trans {a b c} _ hb _ hab hbc := by
    simp only [notLaterBy_iff] at *
    exact Lawful.not_lt_trans hb hab hbc

theorem ties_notLaterBy {a b : β} (ha : isTimedBy time a = true) (hb : isTimedBy time b = true) :
    ties (notLaterBy time) a b = (time a == time b) := by
  rw [Bool.eq_iff_iff, Lawful.beq_iff ha hb, ties, Bool.and_eq_true, notLaterBy_iff,
    notLaterBy_iff, and_comm]

theorem sortedByTime_mergeSort {xs : List β} (h : ∀ a ∈ xs, IsNumber (time a)) :
    SortedByTime time xs (xs.mergeSort (notLaterBy time)) where
  perm := List.mergeSort_perm _ _
  ordered := ((ordersOn_notLaterBy time).pairwise_mergeSort h).imp notLaterBy_iff.mp
  stable {t} ht := by
    rw [(ordersOn_notLaterBy time).filter_mergeSort h]
    refine List.mergeSort_of_pairwise (List.pairwise_of_forall_mem_list fun a ha b hb => ?_)
    obtain ⟨hmem, hta⟩ := List.mem_filter.mp ha
    obtain ⟨hmem', htb⟩ := List.mem_filter.mp hb
    have hafter := ((Lawful.beq_iff ht (h a hmem)).mp hta).1
    have hbefore := ((Lawful.beq_iff ht (h b hmem')).mp htb).2
    exact notLaterBy_iff.mpr (Lawful.not_lt_trans ht hafter hbefore)

end MusicPart
