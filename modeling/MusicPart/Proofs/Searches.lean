import Mathlib

/-!
# Searches

A search through a row in order finds the first of its members at which there is something. In a
range that is the least number, and in a range from above the greatest one.
-/

namespace MusicPart

variable {β γ : Type} {f : β → Option γ} {x : γ}

/-- Everything else where there is something comes after what is found. -/
theorem exists_of_findSome?_pairwise {r : β → β → Prop} {xs : List β} (hxs : xs.Pairwise r)
    (h : xs.findSome? f = some x) :
    ∃ k ∈ xs, f k = some x ∧ ∀ j ∈ xs, (f j).isSome = true → j = k ∨ r k j := by
  obtain ⟨before, k, after, rfl, hx, hnone⟩ := List.findSome?_eq_some_iff.mp h
  refine ⟨k, by simp, hx, fun j hj hsome => ?_⟩
  rcases List.mem_append.mp hj with hj | hj
  · rw [hnone j hj] at hsome
    cases hsome
  · have hafter := (List.pairwise_cons.mp (List.pairwise_append.mp hxs).2.1).1
    exact (List.mem_cons.mp hj).imp_right (hafter j)

section Range

variable {n : Nat} {f : Nat → Option γ}

theorem exists_isLeast_of_findSome? (h : (List.range n).findSome? f = some x) :
    ∃ k, IsLeast {k | k < n ∧ (f k).isSome = true} k ∧ f k = some x := by
  obtain ⟨k, hk, hx, hfirst⟩ := exists_of_findSome?_pairwise List.pairwise_lt_range h
  refine ⟨k, ⟨⟨List.mem_range.mp hk, Option.isSome_of_eq_some hx⟩, fun j hj => ?_⟩, hx⟩
  rcases hfirst j (List.mem_range.mpr hj.1) hj.2 with rfl | hlt
  · exact le_rfl
  · exact hlt.le

/-- What is found first in a range is found at the least number where there is something. -/
theorem findSome?_range_eq_some_iff : (List.range n).findSome? f = some x ↔
    ∃ k, IsLeast {k | k < n ∧ (f k).isSome = true} k ∧ f k = some x := by
  refine ⟨exists_isLeast_of_findSome?, ?_⟩
  rintro ⟨k, hleast, hx⟩
  cases hfound : (List.range n).findSome? f with
  | none =>
      have hnone := List.findSome?_eq_none_iff.mp hfound k (List.mem_range.mpr hleast.1.1)
      exact absurd (hnone.symm.trans hx) nofun
  | some y =>
      obtain ⟨j, hleast', hy⟩ := exists_isLeast_of_findSome? hfound
      rw [hleast'.unique hleast, hx] at hy
      exact hy.symm

theorem exists_isGreatest_of_findSome? (h : (List.range n).reverse.findSome? f = some x) :
    ∃ k, IsGreatest {k | k < n ∧ (f k).isSome = true} k ∧ f k = some x := by
  have hsorted : (List.range n).reverse.Pairwise (· > ·) :=
    List.pairwise_reverse.mpr List.pairwise_lt_range
  obtain ⟨k, hk, hx, hfirst⟩ := exists_of_findSome?_pairwise hsorted h
  simp only [List.mem_reverse, List.mem_range] at hk hfirst
  refine ⟨k, ⟨⟨hk, Option.isSome_of_eq_some hx⟩, fun j hj => ?_⟩, hx⟩
  rcases hfirst j hj.1 hj.2 with rfl | hlt
  · exact le_rfl
  · exact hlt.le

end Range

end MusicPart
