import Mathlib
import MusicPart.Proofs.RoundTrip

/-!
# Acceptance

Of the values that do not nest too deep the reader accepts the text of exactly those without a
number that rounding takes out of the finite range. What it makes of the text has the same members
and the same elements in the same order, each read on its own, and the same whole numbers.
-/

namespace MusicPart.Json

namespace Value

/-! ### What is read of containers -/

section Containers

variable {α : Type} [Quantity α]

theorem rereadElements?_eq_some {vs ws : List (Value α)} (h : rereadElements? vs = some ws) :
    List.Forall₂ (fun v w => v.reread? = some w) vs ws := by
  induction vs generalizing ws with
  | nil =>
      cases h
      exact .nil
  | cons v vs ih =>
      obtain ⟨w, hw, h⟩ := Option.bind_eq_some_iff.mp h
      obtain ⟨ws, hws, h⟩ := Option.bind_eq_some_iff.mp h
      cases h
      exact .cons hw (ih hws)

/-- The second member is what is read of the first one. -/
def Rereads (m n : Text × Value α) : Prop := n.1 = m.1 ∧ m.2.reread? = some n.2

/-- Members with different keys stay apart and in order. -/
theorem rereadMembers?_eq_some {ms done ns : List (Text × Value α)}
    (hnodup : ((done ++ ms).map (·.1)).Nodup) (h : rereadMembers? done ms = some ns) :
    ∃ read, ns = done ++ read ∧ List.Forall₂ Rereads ms read := by
  induction ms generalizing done with
  | nil =>
      cases h
      exact ⟨[], (List.append_nil _).symm, .nil⟩
  | cons m ms ih =>
      obtain ⟨key, v⟩ := m
      obtain ⟨w, hw, h⟩ := Option.bind_eq_some_iff.mp h
      -- A new key goes behind what was read before, so that stays in front.
      rw [insert_of_not_mem (not_mem_of_nodup hnodup)] at h
      obtain ⟨read, rfl, hread⟩ := ih (by simpa using hnodup) h
      exact ⟨(key, w) :: read, by rw [List.append_assoc]; rfl, .cons ⟨rfl, hw⟩ hread⟩

theorem lookup_rereads {ms ns : List (Text × Value α)} (h : List.Forall₂ Rereads ms ns)
    {key : Text} {v : Value α} (hv : lookup key ms = some v) :
    ∃ w, lookup key ns = some w ∧ v.reread? = some w := by
  induction h with
  | nil => exact nomatch hv
  | @cons m n ms ns hmn _ ih =>
      obtain ⟨hkey, hread⟩ := hmn
      rw [lookup, List.find?_cons] at hv ⊢
      rw [hkey]
      cases hfound : m.1 == key with
      | false =>
          rw [hfound] at hv
          exact ih hv
      | true =>
          rw [hfound] at hv
          cases hv
          exact ⟨n.2, rfl, hread⟩

/-- Looking up a member and reading a value can be exchanged. -/
theorem find?_of_reread? {v w : Value α} (hkeys : (v.members.map (·.1)).Nodup)
    (h : v.reread? = some w) {key : Text} {u : Value α} (hu : v.find? key = some u) :
    ∃ u', w.find? key = some u' ∧ u.reread? = some u' := by
  cases v with
  | object ms =>
      obtain ⟨ns, hns, rfl⟩ := Option.map_eq_some_iff.mp h
      obtain ⟨read, rfl, hread⟩ := rereadMembers?_eq_some (List.nil_append ms ▸ hkeys) hns
      exact lookup_rereads hread hu
  | null => exact nomatch hu
  | bool b => exact nomatch hu
  | number x => exact nomatch hu
  | string s => exact nomatch hu
  | array es => exact nomatch hu

theorem exists_array_of_reread? {vs : List (Value α)} {w : Value α}
    (h : (array vs).reread? = some w) :
    ∃ ws, w = .array ws ∧ List.Forall₂ (fun v w => v.reread? = some w) vs ws := by
  obtain ⟨ws, hws, rfl⟩ := Option.map_eq_some_iff.mp h
  exact ⟨ws, rfl, rereadElements?_eq_some hws⟩

end Containers

/-! ### Numbers -/

theorem rereadNumber?_isSome (x : Float) :
    (rereadNumber? x : Option (Value Float)).isSome = !overflows x := by
  rw [rereadNumber?, overflows]
  by_cases hx : Quantity.isFinite x = true
  · by_cases hrounded : Quantity.isFinite (Quantity.roundTo 1e6 x) = true
    · obtain ⟨y, hy⟩ := Binary64.exists_finite?_render hx hrounded
      simp [hx, hrounded, hy]
    · simp [hx, hrounded]
  · simp [hx]

theorem rereadNumber?_ofInt {n : Int} (h : 0 ≤ n) (hn : n ≤ 10 ^ 9) :
    rereadNumber? (Quantity.ofInt n : Float) = some (.ofInt n) := by
  lift n to ℕ using h
  have hn : n ≤ 10 ^ 9 := by exact_mod_cast hn
  have hlt : n < 2 ^ 53 := hn.trans_lt (by norm_num)
  have hwhole : (Quantity.ofInt (n : Int) : Float) = Binary64.whole .positive n :=
    Binary64.ofScientific_eq hlt
  rw [rereadNumber?_moderate ⟨n, hn, .inl rfl⟩, hwhole, unsignedNumber_whole _ hlt]
  rfl

/-! ### All values -/

mutual

theorem isSome_reread? : ∀ v : Value Float,
    v.reread?.isSome = true ↔ ∀ x, .number x ∈ v.parts → overflows x = false
  | .null => by simp [reread?, parts]
  | .bool b => by simp [reread?, parts]
  | .number x => by simp [reread?, parts, rereadNumber?_isSome]
  | .string s => by simp [reread?, parts]
  | .array es => by
      rw [reread?, Option.isSome_map, isSome_rereadElements? es]
      simp [parts]
  | .object ms => by
      rw [reread?, Option.isSome_map, isSome_rereadMembers? ms []]
      simp [parts]

theorem isSome_rereadElements? : ∀ es : List (Value Float),
    (rereadElements? es).isSome = true ↔ ∀ x, .number x ∈ elementsParts es → overflows x = false
  | [] => by simp [rereadElements?, elementsParts]
  | v :: vs => by
      have hv := isSome_reread? v
      have hvs := isSome_rereadElements? vs
      rw [rereadElements?, elementsParts]
      simp only [List.mem_append, or_imp, forall_and, ← hv, ← hvs]
      cases v.reread? <;> cases rereadElements? vs <;> simp

theorem isSome_rereadMembers? : ∀ ms done : List (Text × Value Float),
    (rereadMembers? done ms).isSome = true ↔
      ∀ x, .number x ∈ membersParts ms → overflows x = false
  | [], done => by simp [rereadMembers?, membersParts]
  | (key, v) :: ms, done => by
      have hv := isSome_reread? v
      have hms := isSome_rereadMembers? ms
      rw [rereadMembers?, membersParts]
      simp only [List.mem_append, or_imp, forall_and, ← hv]
      cases v.reread? with
      | none => simp
      | some w => simpa using hms (insert key w done)

end

end Value

/-- The reader accepts the text of a value if and only if none of its numbers overflows. -/
theorem exists_parse_render_iff {v : Value Float} (h : v.depth ≤ Reader.maxDepth) (indent : Int) :
    (∃ w : Value Float, parse (v.render indent) = .ok w) ↔
      ∀ x, .number x ∈ v.parts → Value.overflows x = false := by
  simp only [parse_render_eq_ok h]
  rw [← Option.isSome_iff_exists, v.isSome_reread?]

end MusicPart.Json
