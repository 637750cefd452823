import Mathlib
import MusicPart.Proofs.Rereading

/-!
# Nesting

Looking up a member goes one level down, and setting one adds at most one level to the new value.
-/

namespace MusicPart.Json

theorem bind_eq_ok {ε β γ : Type} {x : Except ε β} {f : β → Except ε γ} {c : γ} :
    x >>= f = .ok c ↔ ∃ b, x = .ok b ∧ f b = .ok c := by
  cases x with
  | error e => exact ⟨fun h => (nomatch h), fun ⟨_, h, _⟩ => (nomatch h)⟩
  | ok b => exact ⟨fun h => ⟨b, rfl, h⟩, fun ⟨_, hb, h⟩ => by cases hb; exact h⟩

variable {α : Type}

namespace Value

/-! ### Members and elements -/

theorem elementsDepth_le {es : List (Value α)} {n : Nat} :
    elementsDepth es ≤ n ↔ ∀ v ∈ es, v.depth < n := by
  induction es with
  | nil => simp [elementsDepth]
  | cons v es ih => rw [elementsDepth, max_le_iff, ih, Nat.succ_le_iff, List.forall_mem_cons]

theorem membersDepth_le {ms : List (Text × Value α)} {n : Nat} :
    membersDepth ms ≤ n ↔ ∀ m ∈ ms, m.2.depth < n := by
  induction ms with
  | nil => simp [membersDepth]
  | cons m ms ih => rw [membersDepth, max_le_iff, ih, Nat.succ_le_iff, List.forall_mem_cons]

theorem mem_insert {key : Text} {v : Value α} {ms : List (Text × Value α)}
    {m : Text × Value α} (h : m ∈ insert key v ms) : m.2 = v ∨ m ∈ ms := by
  induction ms with
  | nil => exact .inl (congrArg Prod.snd (List.mem_singleton.mp h))
  | cons a ms ih =>
      rw [insert] at h
      split at h
      · rcases List.mem_cons.mp h with rfl | h
        · exact .inl rfl
        · exact .inr (List.mem_cons_of_mem a h)
      · rcases List.mem_cons.mp h with rfl | h
        · exact .inr List.mem_cons_self
        · exact (ih h).imp_right (List.mem_cons_of_mem a)

theorem exists_mem_of_find? {v w : Value α} {key : Text} (h : v.find? key = some w) :
    ∃ m ∈ v.members, m.2 = w := by
  obtain ⟨m, hm, rfl⟩ := Option.map_eq_some_iff.mp h
  exact ⟨m, List.mem_of_find?_eq_some hm, rfl⟩

theorem depth_lt_of_find? {v w : Value α} {key : Text} (h : v.find? key = some w) :
    w.depth < v.depth := by
  obtain ⟨m, hm, rfl⟩ := exists_mem_of_find? h
  cases v with
  | object ms => exact membersDepth_le.mp le_rfl m hm
  | null => exact absurd hm List.not_mem_nil
  | bool b => exact absurd hm List.not_mem_nil
  | number x => exact absurd hm List.not_mem_nil
  | string s => exact absurd hm List.not_mem_nil
  | array es => exact absurd hm List.not_mem_nil

theorem depth_set_le {v new : Value α} {n : Nat} (hv : v.depth ≤ n) (hnew : new.depth < n)
    (key : Text) : (v.set key new).depth ≤ n := by
  cases v with
  | null => exact membersDepth_le.mpr (List.forall_mem_singleton.mpr hnew)
  | object ms =>
      refine membersDepth_le.mpr fun m hm => ?_
      rcases mem_insert hm with h | h
      · exact h ▸ hnew
      · exact membersDepth_le.mp hv m h
  | bool b => exact hv
  | number x => exact hv
  | string s => exact hv
  | array es => exact hv

end Value

end MusicPart.Json
