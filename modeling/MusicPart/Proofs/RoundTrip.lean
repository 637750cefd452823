import Mathlib
import MusicPart.Proofs.Binary64
import MusicPart.Proofs.Rereading

/-!
# Round trips

A value of whole numbers of moderate size, whose objects have no key twice and which does not nest
too deep, comes back from its text as it was, whatever the indent. A zero comes back without its
sign, which six places do not show.
-/

namespace MusicPart.Json

namespace Value

/-! ### Values that survive -/

/-- A number with an integral value that six places and nine digits hold. -/
def IsModerate (x : Float) : Prop :=
  ∃ n : Nat, n ≤ 10 ^ 9 ∧ (x = Quantity.ofInt n ∨ x = -Quantity.ofInt (n : Int))

structure Portable (v : Value Float) : Prop where
  keys : ∀ w ∈ v.parts, (w.members.map (·.1)).Nodup
  depth : v.depth ≤ Reader.maxDepth
  numbers : ∀ x, .number x ∈ v.parts → IsModerate x

/-! ### Zeros without a sign -/

def unsignedNumber (x : Float) : Float := if x == 0.0 then 0.0 else x

mutual

def unsigned : Value Float → Value Float
  | .number x => .number (unsignedNumber x)
  | .array es => .array (unsignedElements es)
  | .object ms => .object (unsignedMembers ms)
  | v => v

def unsignedElements : List (Value Float) → List (Value Float)
  | [] => []
  | v :: vs => unsigned v :: unsignedElements vs

def unsignedMembers : List (Text × Value Float) → List (Text × Value Float)
  | [] => []
  | (key, v) :: ms => (key, unsigned v) :: unsignedMembers ms

end

open Binary64 Float.Model.UnpackedFloat

theorem IsModerate.exists_whole {x : Float} (h : IsModerate x) :
    ∃ s n, n ≤ 10 ^ 9 ∧ x = whole s n := by
  obtain ⟨n, hn, h⟩ := h
  have hlt : n < 2 ^ 53 := hn.trans_lt (by norm_num)
  have hpos : (Quantity.ofInt (n : Int) : Float) = whole .positive n := ofScientific_eq hlt
  rcases h with rfl | rfl
  · exact ⟨_, n, hn, hpos⟩
  · exact ⟨_, n, hn, hpos ▸ whole_neg hlt⟩

theorem beq_zero_whole (s : Sign) {n : Nat} (h : n < 2 ^ 53) :
    (whole s n == 0.0) = decide (n = 0) := by
  have hzero : (0.0 : Float) = whole .positive 0 := by decide
  have hunpacked : (whole .positive 0).toModel.unpack = .zero .positive :=
    unpack_whole (by decide)
  rw [hzero]
  change ((whole s n).toModel.unpack.compare (whole .positive 0).toModel.unpack == some .eq) = _
  rw [unpack_whole h, hunpacked, unpackedWhole]
  split_ifs with hn
  · simp [hn, Float.Model.UnpackedFloat.compare]
  · cases s <;> simp [hn, Float.Model.UnpackedFloat.compare]

theorem ofInt_apply (s : Sign) {n : Nat} (hn : n ≠ 0) (h : n < 2 ^ 53) :
    (Quantity.ofInt (s.apply n) : Float) = whole s n := by
  have hsign : signOf (s.apply n) = s := by
    cases s
    · exact if_pos (by simp only [Sign.apply]; omega)
    · exact if_neg (by simp only [Sign.apply]; omega)
  rw [ofInt_eq (by rw [natAbs_apply]; exact h), hsign, natAbs_apply]

theorem unsignedNumber_whole (s : Sign) {n : Nat} (h : n < 2 ^ 53) :
    unsignedNumber (whole s n) = Quantity.ofInt (s.apply n) := by
  rw [unsignedNumber, beq_zero_whole s h]
  by_cases hn : n = 0
  · subst hn
    cases s <;> decide
  · rw [if_neg (by simpa using hn), ofInt_apply s hn h]

theorem unsignedNumber_of_ne {x : Float} (h : IsModerate x) (hzero : x ≠ -0.0) :
    unsignedNumber x = x := by
  obtain ⟨s, n, hn, rfl⟩ := h.exists_whole
  have hlt : n < 2 ^ 53 := hn.trans_lt (by norm_num)
  rw [unsignedNumber_whole s hlt]
  by_cases hn : n = 0
  · subst hn
    cases s with
    | positive => decide
    | negative =>
        have hminus : whole .negative 0 = -0.0 := by decide
        exact absurd hminus hzero
  · exact ofInt_apply s hn hlt

theorem rereadNumber?_moderate {x : Float} (h : IsModerate x) :
    rereadNumber? x = some (.number (unsignedNumber x)) := by
  obtain ⟨s, n, hn, rfl⟩ := h.exists_whole
  have hlt : n < 2 ^ 53 := hn.trans_lt (by norm_num)
  have hmillion : n * 1000000 < 2 ^ 53 := (Nat.mul_le_mul_right _ hn).trans_lt (by norm_num)
  have happly : (s.apply n).natAbs < 2 ^ 53 := by rw [natAbs_apply]; exact hlt
  have hrounded : Quantity.isFinite (Quantity.roundTo 1e6 (whole s n)) = true := by
    rw [roundTo_whole hmillion, ofInt_eq happly]
    exact isFinite_whole happly
  rw [rereadNumber?, overflows, isFinite_whole hlt, hrounded, render_whole hn,
    finite?_ofInt happly, unsignedNumber_whole s hlt]
  rfl

/-! ### Keys that stay apart -/

theorem insert_of_not_mem {α : Type} {key : Text} {v : Value α} {ms : List (Text × Value α)}
    (h : key ∉ ms.map (·.1)) : insert key v ms = ms ++ [(key, v)] := by
  induction ms with
  | nil => rfl
  | cons m ms ih =>
      rw [List.map_cons, List.mem_cons, not_or] at h
      have hne : (m.1 == key) = false := by simpa using fun heq => h.1 heq.symm
      rw [insert, hne, ih h.2]
      rfl

theorem not_mem_of_nodup {α : Type} {done ms : List (Text × Value α)} {m : Text × Value α}
    (h : ((done ++ m :: ms).map (·.1)).Nodup) : m.1 ∉ done.map (·.1) := by
  rw [List.map_append, List.map_cons, List.nodup_middle, List.nodup_cons] at h
  exact fun hmem => h.1 (List.mem_append_left _ hmem)

mutual

theorem reread?_portable : ∀ v : Value Float, (∀ w ∈ v.parts, (w.members.map (·.1)).Nodup) →
    (∀ x, .number x ∈ v.parts → IsModerate x) → v.reread? = some v.unsigned
  | .null, _, _ => rfl
  | .bool _, _, _ => rfl
  | .number x, _, hnumbers => rereadNumber?_moderate (hnumbers x (by simp [parts]))
  | .string _, _, _ => rfl
  | .array es, hkeys, hnumbers => by
      have helements := rereadElements?_portable es
        (fun w hw => hkeys w (List.mem_cons_of_mem _ hw))
        (fun x hx => hnumbers x (List.mem_cons_of_mem _ hx))
      rw [reread?, helements, unsigned]
      rfl
  | .object ms, hkeys, hnumbers => by
      have hmembers := rereadMembers?_portable ms [] (hkeys _ (List.mem_cons_self ..))
        (fun w hw => hkeys w (List.mem_cons_of_mem _ hw))
        (fun x hx => hnumbers x (List.mem_cons_of_mem _ hx))
      rw [reread?, hmembers, unsigned]
      rfl

theorem rereadElements?_portable : ∀ es : List (Value Float),
    (∀ w ∈ elementsParts es, (w.members.map (·.1)).Nodup) →
    (∀ x, .number x ∈ elementsParts es → IsModerate x) →
      rereadElements? es = some (unsignedElements es)
  | [], _, _ => rfl
  | v :: vs, hkeys, hnumbers => by
      have hvalue := reread?_portable v
        (fun w hw => hkeys w (List.mem_append_left _ hw))
        (fun x hx => hnumbers x (List.mem_append_left _ hx))
      have helements := rereadElements?_portable vs
        (fun w hw => hkeys w (List.mem_append_right _ hw))
        (fun x hx => hnumbers x (List.mem_append_right _ hx))
      rw [rereadElements?, hvalue, helements, unsignedElements]
      rfl

theorem rereadMembers?_portable : ∀ (ms done : List (Text × Value Float)),
    ((done ++ ms).map (·.1)).Nodup →
    (∀ w ∈ membersParts ms, (w.members.map (·.1)).Nodup) →
    (∀ x, .number x ∈ membersParts ms → IsModerate x) →
      rereadMembers? done ms = some (done ++ unsignedMembers ms)
  | [], done, _, _, _ => by rw [rereadMembers?, unsignedMembers, List.append_nil]
  | (key, v) :: ms, done, hnodup, hkeys, hnumbers => by
      have hvalue := reread?_portable v
        (fun w hw => hkeys w (List.mem_append_left _ hw))
        (fun x hx => hnumbers x (List.mem_append_left _ hx))
      have hnew := not_mem_of_nodup hnodup
      have hmembers := rereadMembers?_portable ms (done ++ [(key, v.unsigned)])
        (by simpa using hnodup)
        (fun w hw => hkeys w (List.mem_append_right _ hw))
        (fun x hx => hnumbers x (List.mem_append_right _ hx))
      rw [rereadMembers?, hvalue]
      change rereadMembers? (insert key v.unsigned done) ms = _
      rw [insert_of_not_mem hnew, hmembers, unsignedMembers, List.append_assoc]
      rfl

end

mutual

theorem unsigned_eq : ∀ v : Value Float, (∀ x, .number x ∈ v.parts → unsignedNumber x = x) →
    v.unsigned = v
  | .null, _ => rfl
  | .bool _, _ => rfl
  | .number x, h => congrArg Value.number (h x (by simp [parts]))
  | .string _, _ => rfl
  | .array es, h => congrArg Value.array
      (unsignedElements_eq es fun x hx => h x (List.mem_cons_of_mem _ hx))
  | .object ms, h => congrArg Value.object
      (unsignedMembers_eq ms fun x hx => h x (List.mem_cons_of_mem _ hx))

theorem unsignedElements_eq : ∀ es : List (Value Float),
    (∀ x, .number x ∈ elementsParts es → unsignedNumber x = x) → unsignedElements es = es
  | [], _ => rfl
  | v :: vs, h => congrArg₂ List.cons
      (unsigned_eq v fun x hx => h x (List.mem_append_left _ hx))
      (unsignedElements_eq vs fun x hx => h x (List.mem_append_right _ hx))

theorem unsignedMembers_eq : ∀ ms : List (Text × Value Float),
    (∀ x, .number x ∈ membersParts ms → unsignedNumber x = x) → unsignedMembers ms = ms
  | [], _ => rfl
  | (key, v) :: ms, h => congrArg₂ List.cons
      (congrArg (Prod.mk key) (unsigned_eq v fun x hx => h x (List.mem_append_left _ hx)))
      (unsignedMembers_eq ms fun x hx => h x (List.mem_append_right _ hx))

end

end Value

/-- A portable value is read back from its text under every indent, member order included; it is
the value itself unless it has a zero with a sign. -/
theorem parse_render_portable {v : Value Float} (h : v.Portable) (indent : Int) :
    parse (v.render indent) = .ok v.unsigned ∧
      ((∀ x, .number x ∈ v.parts → x ≠ -0.0) → v.unsigned = v) := by
  refine ⟨(parse_render_eq_ok h.depth).mpr (v.reread?_portable h.keys h.numbers), ?_⟩
  intro hzero
  exact v.unsigned_eq fun x hx => Value.unsignedNumber_of_ne (h.numbers x hx) (hzero x hx)

/-- Two members, of which one holds every kind of value, with a key and a string of awkward
bytes. -/
def sampler : Value Float :=
  .object [
    ([0x00, 0x22, 0x5C, 0xFF],
      .array [.null, .bool true, .number 1000000000.0, .number (-2.0), .object [], .array []]),
    ([], .string [0x00, 0x1F, 0x22, 0x5C, 0x7F, 0x80, 0xFF])]

theorem parse_render_sampler : parse (sampler.render 2) = .ok sampler := by
  have hnumbers (x : Float) (hx : .number x ∈ sampler.parts) : x = 1000000000.0 ∨ x = -2.0 := by
    simpa [sampler, Value.parts, Value.elementsParts, Value.membersParts] using hx
  have hportable : sampler.Portable := by
    refine ⟨?_, by decide, ?_⟩
    · simp [sampler, Value.parts, Value.elementsParts, Value.membersParts, Value.members]
    · intro x hx
      rcases hnumbers x hx with rfl | rfl
      · exact ⟨1000000000, le_refl _, .inl (by decide)⟩
      · exact ⟨2, by norm_num, .inr (by decide)⟩
  obtain ⟨hparse, hunsigned⟩ := parse_render_portable hportable 2
  rw [hparse, hunsigned]
  intro x hx
  rcases hnumbers x hx with rfl | rfl
  · decide
  · decide

end MusicPart.Json
