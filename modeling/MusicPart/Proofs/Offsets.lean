import MusicPart.Proofs.Documents
import MusicPart.Proofs.Surrogates

/-!
# Where reading stops

Reading goes through a text from its beginning, so what it has not read is an end of the text, both
behind a value and at the first thing wrong. A text is either read, as a value with all that the
reader promises of one, or refused with what is wrong and the number of bytes before it.
-/

namespace MusicPart.Json

open Text

/-- What is left of a text is an end of it, whether something was read or refused. A reader that was
called on a text does not find that there is no text. -/
def Within {β : Type} (t : Text) : Except Failure (β × Text) → Prop
  | .ok (_, rest) => rest <:+ t
  | .error f => f.problem ≠ .emptyInput ∧ f.rest <:+ t

namespace Within

variable {β γ : Type} {s t : Text} {x : Except Failure (β × Text)}

theorem refused {p : Problem} (h : p ≠ .emptyInput) (t : Text) :
    Within t (.error ⟨p, t⟩ : Except Failure (β × Text)) := ⟨h, List.suffix_rfl⟩

theorem mono (hx : Within s x) (h : s <:+ t) : Within t x := by
  cases x with
  | ok p => exact List.IsSuffix.trans hx h
  | error f => exact ⟨hx.1, hx.2.trans h⟩

theorem cons {b : UInt8} (hx : Within t x) : Within (b :: t) x := hx.mono (List.suffix_cons b t)

theorem skip (hx : Within (Reader.skip t) x) : Within t x := hx.mono (List.dropWhile_suffix _)

/-- Of two readers in turn, the second one goes on where the first one stopped. -/
theorem bind (hx : Within t x) {f : β × Text → Except Failure (γ × Text)}
    (hf : ∀ p, Within p.2 (f p)) : Within t (x >>= f) := by
  cases x with
  | ok p => exact (hf p).mono hx
  | error f => exact hx

theorem map (hx : Within t x) (f : β → γ) : Within t (x >>= fun p => .ok (f p.1, p.2)) :=
  hx.bind fun _ => List.suffix_rfl

end Within

/-! ### Literals -/

theorem Literal.within_pieces (t : Text) : Within t (pieces t) := by
  fun_induction pieces t with
  | case1 => exact .refused (by decide) _
  | case2 b t => exact List.suffix_cons b t
  | case3 b t _ _ ih => exact (ih.map _).cons
  | case4 b => exact (Within.refused (by decide) _).cons
  | case5 => exact (Within.refused (by decide) _).cons.cons.cons
  | case6 => exact (Within.refused (by decide) _).cons.cons.cons.cons
  | case7 => exact (Within.refused (by decide) _).cons.cons.cons.cons.cons
  | case8 => exact (Within.refused (by decide) _).cons.cons.cons.cons.cons.cons
  | case9 b _ _ letter _ d₁ d₂ d₃ d₄ t _ _ _ _ ih => exact (ih.map _).cons.cons.cons.cons.cons.cons
  | case10 => exact (Within.refused (by decide) _).cons.cons
  | case11 => exact (Within.refused (by decide) _).cons.cons
  | case12 b _ _ letter t _ _ ih => exact (ih.map _).cons.cons

theorem Literal.within_read (t : Text) : Within t (read t) := by
  cases t with
  | nil => exact .refused (by decide) _
  | cons b t =>
      rw [read]
      split
      · exact ((within_pieces t).map decode).cons
      · exact .refused (by decide) _

/-! ### Values -/

namespace Reader

variable {α : Type}

theorem within_literal (word : Text) (v : Value α) (t : Text) : Within t (literal word v t) := by
  rw [literal]
  split
  · exact List.drop_suffix _ _
  · exact .refused (by decide) _

section Containers

variable {value : Text → Except Failure (Value α × Text)} (hvalue : ∀ t, Within t (value t))

include hvalue

theorem within_elements (n : Nat) (t : Text) : Within t (elements value n t) := by
  induction n generalizing t with
  | zero => exact .refused (by decide) _
  | succ n ih =>
      refine (hvalue t).bind fun ⟨v, t'⟩ => .skip ?_
      dsimp only
      cases skip t' with
      | nil => exact .refused (by decide) _
      | cons b rest =>
          dsimp only
          split
          · exact ((ih rest).map _).cons
          · split
            · exact List.suffix_cons b rest
            · exact .refused (by decide) _

theorem within_members (n : Nat) (done : List (Text × Value α)) (t : Text) :
    Within t (members value n done t) := by
  induction n generalizing done t with
  | zero => exact .refused (by decide) _
  | succ n ih =>
      refine ((Literal.within_read _).bind fun ⟨key, t'⟩ => .skip ?_).skip
      dsimp only
      cases skip t' with
      | nil => exact .refused (by decide) _
      | cons colon rest =>
          dsimp only
          split
          · exact .refused (by decide) _
          · refine ((hvalue rest).bind fun ⟨v, t''⟩ => .skip ?_).cons
            dsimp only
            cases skip t'' with
            | nil => exact .refused (by decide) _
            | cons b rest =>
                dsimp only
                split
                · exact (ih _ rest).cons
                · split
                  · exact List.suffix_cons b rest
                  · exact .refused (by decide) _

theorem within_array (t : Text) : Within t (array value t) := by
  refine .skip ?_
  rw [array]
  cases skip t with
  | nil => exact (within_elements hvalue _ _).map _
  | cons b rest =>
      dsimp only
      split
      · exact List.suffix_cons b rest
      · exact (within_elements hvalue _ _).map _

theorem within_object (t : Text) : Within t (object value t) := by
  refine .skip ?_
  rw [object]
  cases skip t with
  | nil => exact (within_members hvalue _ _ _).map _
  | cons b rest =>
      dsimp only
      split
      · exact List.suffix_cons b rest
      · exact (within_members hvalue _ _ _).map _

end Containers

variable [Quantity α]

theorem within_number (t : Text) : Within t (number t : Except Failure (Value α × Text)) := by
  rw [number]
  dsimp only
  split
  · rw [List.span_eq_takeWhile_dropWhile]
    exact List.dropWhile_suffix _
  · exact .refused (by decide) _

theorem within_value (levels : Nat) (t : Text) :
    Within t (value levels t : Except Failure (Value α × Text)) := by
  induction levels generalizing t with
  | zero => exact .refused (by decide) _
  | succ levels ih =>
      refine .skip ?_
      rw [value]
      cases skip t with
      | nil => exact .refused (by decide) _
      | cons b rest =>
          dsimp only
          split
          · exact (within_object ih rest).cons
          · split
            · exact (within_array ih rest).cons
            · split
              · exact (Literal.within_read _).map _
              · split
                · exact within_literal _ _ _
                · split
                  · exact within_literal _ _ _
                  · split
                    · exact within_literal _ _ _
                    · exact within_number _

theorem refused_of_document {t : Text} (ht : t ≠ []) {f : Failure}
    (h : (document t : Except Failure (Value α)) = .error f) :
    f.problem ≠ .emptyInput ∧ f.rest <:+ t := by
  have hempty : t.isEmpty = false := by simpa using ht
  have hvalue : Within t (value (maxDepth + 1) t : Except Failure (Value α × Text)) :=
    within_value _ t
  rw [document, hempty, if_neg Bool.false_ne_true] at h
  cases hread : (value (maxDepth + 1) t : Except Failure (Value α × Text)) with
  | error g =>
      rw [hread] at h hvalue
      cases h
      exact hvalue
  | ok p =>
      rw [hread] at h hvalue
      have hskip : skip p.2 <:+ p.2 := List.dropWhile_suffix _
      dsimp only [bind, Except.bind] at h
      split at h
      · cases h
      · cases h
        exact ⟨show Problem.trailing ≠ .emptyInput by decide, hskip.trans hvalue⟩

end Reader

/-! ### Documents -/

variable {α : Type} [Quantity α]

/-- No object has a key twice, nothing nests deeper than the limit and all numbers are finite. -/
structure Value.Orderly (v : Value α) : Prop where
  keys : ∀ w, Occurs w v → (w.members.map (·.1)).Nodup
  depth : v.depth ≤ 64
  numbers : ∀ x, Occurs (.number x) v → Quantity.isFinite x = true

theorem Readable.orderly {v : Value α} (h : Readable (Reader.maxDepth + 1) v) : v.Orderly where
  keys w hw := by
    obtain ⟨n, hread⟩ := h.of_occurs hw
    cases hread with
    | object hkeys _ => exact hkeys
    | _ => exact List.nodup_nil
  depth := Nat.le_of_lt_succ h.depth_lt
  numbers x hx := by
    obtain ⟨n, hread⟩ := h.of_occurs hx
    exact hread.isFinite_numeric? rfl

/-- A message tells a problem and the number of bytes before the place where what was not read
begins. -/
structure Failure.ToldBy (f : Failure) (t message : Text) : Prop where
  offset_le : f.offset t ≤ t.length
  rest : f.rest = t.drop (f.offset t)
  message : message = f.problem.wording ++ " at offset " ++ Text.ofNat (f.offset t)

theorem Failure.toldBy_message {f : Failure} {t : Text} (hproblem : f.problem ≠ .emptyInput)
    (hrest : f.rest <:+ t) : f.ToldBy t (f.message t) where
  offset_le := Nat.sub_le _ _
  rest := List.suffix_iff_eq_drop.mp hrest
  message := by
    rw [Failure.message]
    split
    · contradiction
    · rfl

theorem Failure.message_ne_nil (f : Failure) (t : Text) : f.message t ≠ [] := by
  have hwording (p : Problem) : p.wording ≠ [] := by cases p <;> decide
  rw [Failure.message]
  split
  · exact hwording _
  · simp [hwording]

/-- A text is either read as an orderly value, or there is no value and a message, which tells of a
text that is not empty at what offset reading stopped. -/
theorem parse_sound (t : Text) :
    match (parse t : Except Text (Value α)) with
    | .ok v => v.Orderly
    | .error message => (parse t).toOption.getD .null = (.null : Value α) ∧ message ≠ [] ∧
        (t ≠ [] → ∃ f, (Reader.document t : Except Failure (Value α)) = .error f ∧
          f.ToldBy t message) := by
  cases hparse : (parse t : Except Text (Value α)) with
  | ok v => exact (readable_parse hparse).orderly
  | error message =>
      rw [parse] at hparse
      cases hdocument : (Reader.document t : Except Failure (Value α)) with
      | ok v =>
          rw [hdocument] at hparse
          cases hparse
      | error f =>
          rw [hdocument] at hparse
          cases hparse
          refine ⟨rfl, f.message_ne_nil t, fun ht => ⟨f, rfl, ?_⟩⟩
          obtain ⟨hproblem, hrest⟩ := Reader.refused_of_document ht hdocument
          exact Failure.toldBy_message hproblem hrest

end MusicPart.Json
