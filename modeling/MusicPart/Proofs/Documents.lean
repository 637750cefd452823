import Mathlib
import MusicPart.Proofs.Nesting

/-!
# Documents

What the reader makes of a text has no two members of one object under one key, no number that is
not finite, and no more levels of nesting than it allows.
-/

namespace MusicPart.Json

variable {α : Type} [Quantity α]

/-- The values that the reader can make with so many levels of nesting. -/
inductive Readable : Nat → Value α → Prop
  | null {n : Nat} : Readable (n + 1) .null
  | bool {n : Nat} (b : Bool) : Readable (n + 1) (.bool b)
  | number {n : Nat} {x : α} (h : Quantity.isFinite x = true) : Readable (n + 1) (.number x)
  | string {n : Nat} (s : Text) : Readable (n + 1) (.string s)
  | array {n : Nat} {es : List (Value α)} (h : ∀ v ∈ es, Readable n v) :
      Readable (n + 1) (.array es)
  | object {n : Nat} {ms : List (Text × Value α)} (hkeys : (ms.map (·.1)).Nodup)
      (h : ∀ m ∈ ms, Readable n m.2) : Readable (n + 1) (.object ms)

/-! ### Numerals -/

theorem isFinite_of_finite? {t : Text} {x : α} (h : Numeral.finite? t = some x) :
    Quantity.isFinite x = true :=
  (Option.filter_eq_some_iff.mp h).2

/-! ### What is inside a document -/

namespace Readable

variable {n : Nat} {v w : Value α}

theorem depth_lt (h : Readable n v) : v.depth < n := by
  induction h with
  | array _ ih => exact Nat.lt_succ_of_le (Value.elementsDepth_le.mpr ih)
  | object _ _ ih => exact Nat.lt_succ_of_le (Value.membersDepth_le.mpr ih)
  | _ => exact Nat.succ_pos _

theorem of_mem_elements (h : Readable n v) (hw : w ∈ v.elements) : ∃ m, Readable m w := by
  cases h with
  | array h => exact ⟨_, h w hw⟩
  | _ => exact absurd hw List.not_mem_nil

theorem of_mem_members (h : Readable n v) {m : Text × Value α} (hm : m ∈ v.members) :
    ∃ k, Readable k m.2 := by
  cases h with
  | object _ h => exact ⟨_, h m hm⟩
  | _ => exact absurd hm List.not_mem_nil

theorem of_find? (h : Readable n v) {key : Text} (hw : v.find? key = some w) :
    ∃ m, Readable m w := by
  obtain ⟨m, hm, rfl⟩ := Value.exists_mem_of_find? hw
  exact h.of_mem_members hm

theorem isFinite_numeric? (h : Readable n v) {x : α} (hx : v.numeric? = some x) :
    Quantity.isFinite x = true := by
  cases h with
  | number h =>
      cases hx
      exact h
  | string s => exact isFinite_of_finite? hx
  | _ => cases hx

end Readable

/-- A value occurs in another one as itself, in an element or in a member. -/
inductive Value.Occurs (v : Value α) : Value α → Prop
  | here : Occurs v v
  | element {w u : Value α} (hw : w ∈ u.elements) (h : Occurs v w) : Occurs v u
  | member {m : Text × Value α} {u : Value α} (hm : m ∈ u.members) (h : Occurs v m.2) : Occurs v u

omit [Quantity α] in
theorem Value.Occurs.trans {v w u : Value α} (hv : Occurs v w) (hw : Occurs w u) : Occurs v u := by
  induction hw with
  | here => exact hv
  | element hmem _ ih => exact .element hmem ih
  | member hmem _ ih => exact .member hmem ih

omit [Quantity α] in
theorem Value.occurs_of_find? {v w : Value α} {key : Text} (h : v.find? key = some w) :
    Occurs w v := by
  obtain ⟨m, hm, rfl⟩ := exists_mem_of_find? h
  exact .member hm .here

theorem Readable.of_occurs {v w : Value α} (hw : Value.Occurs w v) {n : Nat}
    (h : Readable n v) : ∃ m, Readable m w := by
  induction hw generalizing n with
  | here => exact ⟨n, h⟩
  | element hmem _ ih =>
      obtain ⟨m, hm⟩ := h.of_mem_elements hmem
      exact ih hm
  | member hmem _ ih =>
      obtain ⟨m, hm⟩ := h.of_mem_members hmem
      exact ih hm

/-! ### Reading -/

omit [Quantity α] in
theorem Value.mem_keys_insert {key other : Text} {v : Value α} {ms : List (Text × Value α)}
    (h : other ∈ (insert key v ms).map (·.1)) : other = key ∨ other ∈ ms.map (·.1) := by
  induction ms with
  | nil => exact .inl (List.mem_singleton.mp h)
  | cons m ms ih =>
      rw [insert] at h
      split at h
      · exact .inr h
      · rcases List.mem_cons.mp h with rfl | h
        · exact .inr List.mem_cons_self
        · exact (ih h).imp_right (List.mem_cons_of_mem _)

omit [Quantity α] in
theorem Value.nodup_keys_insert {key : Text} {v : Value α} {ms : List (Text × Value α)}
    (h : (ms.map (·.1)).Nodup) : ((insert key v ms).map (·.1)).Nodup := by
  induction ms with
  | nil => exact List.nodup_singleton _
  | cons m ms ih =>
      obtain ⟨hnot, hnodup⟩ := List.nodup_cons.mp h
      rw [insert]
      split
      · exact h
      · rename_i hne
        refine List.nodup_cons.mpr ⟨fun hmem => ?_, ih hnodup⟩
        rcases mem_keys_insert hmem with heq | hmem
        · exact hne (beq_iff_eq.mpr heq)
        · exact hnot hmem

namespace Reader

variable {value : Text → Except Failure (Value α × Text)} {levels : Nat}

omit [Quantity α] in
theorem eq_of_literal {word t : Text} {w v : Value α} {rest : Text}
    (h : literal word w t = .ok (v, rest)) : v = w := by
  obtain ⟨-, h⟩ | ⟨-, h⟩ := ite_eq_iff.mp h
  · cases h
    rfl
  · cases h

theorem readable_elements (hvalue : ∀ {t v rest}, value t = .ok (v, rest) → Readable levels v) :
    ∀ {n : Nat} {t : Text} {vs : List (Value α)} {rest : Text},
      elements value n t = .ok (vs, rest) → ∀ v ∈ vs, Readable levels v
  | 0, _, _, _, h => nomatch h
  | n + 1, t, vs, rest, h => by
      rw [elements] at h
      obtain ⟨⟨v, t'⟩, hv, h⟩ := bind_eq_ok.mp h
      dsimp only at h
      split at h
      · cases h
      · split at h
        · obtain ⟨⟨ws, t''⟩, hws, h⟩ := bind_eq_ok.mp h
          cases h
          exact List.forall_mem_cons.mpr ⟨hvalue hv, readable_elements hvalue hws⟩
        · split at h
          · cases h
            exact List.forall_mem_singleton.mpr (hvalue hv)
          · cases h

theorem readable_members (hvalue : ∀ {t v rest}, value t = .ok (v, rest) → Readable levels v) :
    ∀ {n : Nat} {done : List (Text × Value α)} {t : Text} {ms : List (Text × Value α)}
      {rest : Text}, Readable (levels + 1) (.object done) →
      members value n done t = .ok (ms, rest) → Readable (levels + 1) (.object ms)
  | 0, _, _, _, _, _, h => nomatch h
  | n + 1, done, t, ms, rest, .object hkeys hdone, h => by
      rw [members] at h
      obtain ⟨⟨key, t'⟩, -, h⟩ := bind_eq_ok.mp h
      dsimp only at h
      split at h
      · cases h
      · split at h
        · cases h
        · obtain ⟨⟨v, t''⟩, hv, h⟩ := bind_eq_ok.mp h
          -- That the members so far make an object is what the recursion carries along.
          have hinserted : Readable (levels + 1) (.object (Value.insert key v done)) := by
            refine .object (Value.nodup_keys_insert hkeys) fun m hm => ?_
            rcases Value.mem_insert hm with hm | hm
            · exact hm ▸ hvalue hv
            · exact hdone m hm
          dsimp only at h
          split at h
          · cases h
          · split at h
            · exact readable_members hvalue hinserted h
            · split at h
              · cases h
                exact hinserted
              · cases h

theorem readable_array (hvalue : ∀ {t v rest}, value t = .ok (v, rest) → Readable levels v)
    {t : Text} {v : Value α} {rest : Text} (h : array value t = .ok (v, rest)) :
    Readable (levels + 1) v := by
  have hread {n : Nat} {t : Text} {v : Value α} {rest : Text}
      (h : (elements value n t >>= fun r => .ok (Value.array r.1, r.2)) = Except.ok (v, rest)) :
      Readable (levels + 1) v := by
    obtain ⟨⟨vs, t'⟩, hvs, h⟩ := bind_eq_ok.mp h
    cases h
    exact .array (readable_elements hvalue hvs)
  rw [array] at h
  split at h
  · split at h
    · cases h
      exact .array (List.forall_mem_nil _)
    · exact hread h
  · exact hread h

theorem readable_object (hvalue : ∀ {t v rest}, value t = .ok (v, rest) → Readable levels v)
    {t : Text} {v : Value α} {rest : Text} (h : object value t = .ok (v, rest)) :
    Readable (levels + 1) v := by
  have hempty : Readable (levels + 1) (.object [] : Value α) :=
    .object List.nodup_nil (List.forall_mem_nil _)
  have hread {n : Nat} {t : Text} {v : Value α} {rest : Text}
      (h : (members value n [] t >>= fun r => .ok (Value.object r.1, r.2)) = Except.ok (v, rest)) :
      Readable (levels + 1) v := by
    obtain ⟨⟨ms, t'⟩, hms, h⟩ := bind_eq_ok.mp h
    cases h
    exact readable_members hvalue hempty hms
  rw [object] at h
  split at h
  · split at h
    · cases h
      exact hempty
    · exact hread h
  · exact hread h

theorem readable_number {t : Text} {v : Value α} {rest : Text} (h : number t = .ok (v, rest)) :
    Readable (levels + 1) v := by
  rw [number] at h
  dsimp only at h
  split at h
  · rename_i x hx
    cases h
    exact .number (isFinite_of_finite? hx)
  · cases h

theorem readable_value : ∀ {levels : Nat} {t : Text} {v : Value α} {rest : Text},
    Reader.value levels t = .ok (v, rest) → Readable levels v
  | 0, _, _, _, h => nomatch h
  | levels + 1, t, v, rest, h => by
      rw [Reader.value] at h
      split at h
      · cases h
      · split at h
        · exact readable_object readable_value h
        · split at h
          · exact readable_array readable_value h
          · split at h
            · obtain ⟨⟨s, t'⟩, -, h⟩ := bind_eq_ok.mp h
              cases h
              exact .string s
            · split at h
              · exact eq_of_literal h ▸ .bool true
              · split at h
                · exact eq_of_literal h ▸ .bool false
                · split at h
                  · exact eq_of_literal h ▸ .null
                  · exact readable_number h

end Reader

theorem value_of_parse {t : Text} {v : Value α} (h : parse t = .ok v) :
    ∃ rest, Reader.value (Reader.maxDepth + 1) t = .ok (v, rest) := by
  rw [parse] at h
  split at h
  · rename_i w hdocument
    cases h
    obtain ⟨-, hdocument⟩ | ⟨-, hdocument⟩ := ite_eq_iff.mp hdocument
    · cases hdocument
    · obtain ⟨⟨w, rest⟩, hw, hrest⟩ := bind_eq_ok.mp hdocument
      dsimp only at hrest
      split at hrest
      · cases hrest
        exact ⟨rest, hw⟩
      · cases hrest
  · cases h

theorem readable_parse {t : Text} {v : Value α} (h : parse t = .ok v) :
    Readable (Reader.maxDepth + 1) v := by
  obtain ⟨rest, hvalue⟩ := value_of_parse h
  exact Reader.readable_value hvalue

theorem depth_parse {t : Text} {v : Value α} (h : parse t = .ok v) :
    v.depth ≤ Reader.maxDepth :=
  Nat.le_of_lt_succ (readable_parse h).depth_lt

end MusicPart.Json
