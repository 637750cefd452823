import Mathlib
import MusicPart.Shorthand
import MusicPart.Quantity.Exact
import MusicPart.Proofs.Numerals

/-!
# Parameters of a shorthand

A shorthand with any number of parameters is read whenever its pitch is. The last note value among
the parameters is its duration, and of the others the last one that counts as a velocity is its
velocity. A run of digits counts by what a machine word keeps of it, and so one that is too large
for the word can count as a velocity that it does not tell.
-/

namespace MusicPart

open Text

/-! ### Cutting -/

namespace Text

theorem splitOn_eq (sep : UInt8) (t : Text) : splitOn sep t = List.splitOn sep t := by
  induction t with
  | nil => rfl
  | cons b t ih =>
      rw [splitOn, ih, List.splitOn, List.splitOn, List.splitOnP_cons_eq_if_modifyHead]
      cases h : List.splitOnP (· == sep) t with
      | nil => exact absurd h (List.splitOnP_ne_nil _ _)
      | cons piece rest => rfl

theorem not_mem_intercalate {b sep : UInt8} {parts : List Text} (hsep : b ≠ sep)
    (h : ∀ part ∈ parts, b ∉ part) : b ∉ [sep].intercalate parts := by
  induction parts with
  | nil => exact List.not_mem_nil
  | cons part parts ih =>
      obtain ⟨hpart, hparts⟩ := List.forall_mem_cons.mp h
      cases parts with
      | nil => simpa using hpart
      | cons next parts =>
          rw [List.intercalate_cons_cons, List.append_assoc, List.mem_append, not_or]
          refine ⟨hpart, ?_⟩
          rw [List.singleton_append, List.mem_cons, not_or]
          exact ⟨hsep, ih hparts⟩

/-- Trimming takes away nothing but blanks. -/
theorem mem_trim {b : UInt8} {t : Text} (hb : isSpace b = false) (h : b ∈ t) : b ∈ trim t := by
  have hdrop (s : Text) (hs : b ∈ s) : b ∈ s.dropWhile isSpace := by
    rw [← List.takeWhile_append_dropWhile (p := isSpace) (l := s), List.mem_append] at hs
    refine hs.resolve_left fun hmem => ?_
    rw [List.mem_takeWhile_imp hmem] at hb
    cases hb
  rw [trim, strip, dropEndWhile, List.mem_reverse]
  exact hdrop _ (List.mem_reverse.mpr (hdrop t h))

end Text

/-! ### Pitches -/

namespace Pitch

/-- The bytes of whole numbers and note names. -/
def isNameByte (b : UInt8) : Bool :=
  isDigit b || b == byte '-' || b == byte '#' || (letter? b).isSome

theorem isNameByte_of_shortInteger? {t : Text} {n : Int} (h : shortInteger? t = some n) :
    ∀ b ∈ t, isNameByte b = true := by
  have hdigits {s : Text} (hs : s.all isDigit = true) : ∀ b ∈ s, isNameByte b = true := by
    intro b hb
    simp [isNameByte, List.all_eq_true.mp hs b hb]
  cases t with
  | nil => exact fun b hb => absurd hb List.not_mem_nil
  | cons b t =>
      by_cases hminus : b = byte '-'
      · subst hminus
        have hall : t.all isDigit = true := by
          simp [shortInteger?] at h
          exact List.all_eq_true.mpr h.1.2
        exact List.forall_mem_cons.mpr ⟨by decide, hdigits hall⟩
      · have hall : (b :: t).all isDigit = true := by
          by_contra hnot
          rw [Bool.not_eq_true] at hnot
          simp [shortInteger?, hminus, hnot] at h
        exact hdigits hall

theorem isNameByte_of_accidental {t : Text}
    (h : ∀ b ∈ (accidental t).2, isNameByte b = true) : ∀ b ∈ t, isNameByte b = true := by
  cases t with
  | nil => exact h
  | cons b t =>
      rw [accidental] at h
      split at h
      · rename_i hsharp
        exact List.forall_mem_cons.mpr ⟨by rw [eq_of_beq hsharp]; decide, h⟩
      · split at h
        · rename_i hflat
          exact List.forall_mem_cons.mpr ⟨by rw [eq_of_beq hflat]; decide, h⟩
        · exact h

theorem isNameByte_of_ofName? {t : Text} {p : Int} (h : ofName? t = some p) :
    ∀ b ∈ trim t, isNameByte b = true := by
  obtain ⟨⟨semitone, rest⟩, hdegree, h⟩ := Option.bind_eq_some_iff.mp h
  obtain ⟨octave, hoctave, -⟩ := Option.bind_eq_some_iff.mp h
  cases ht : trim t with
  | nil => exact fun b hb => absurd hb List.not_mem_nil
  | cons b t =>
      rw [ht] at hdegree
      obtain ⟨n, hletter, hdegree⟩ := Option.bind_eq_some_iff.mp hdegree
      cases hdegree
      refine List.forall_mem_cons.mpr
        ⟨?_, isNameByte_of_accidental (isNameByte_of_shortInteger? hoctave)⟩
      simp [isNameByte, hletter]

/-- A text that is read as a pitch has nothing in it but blanks and the bytes of its name. -/
theorem isNameByte_of_ofText? {t : Text} {p : Int} (h : ofText? t = some p) :
    ∀ b ∈ trim t, isNameByte b = true := by
  rw [ofText?] at h
  split at h
  · rename_i hn
    exact isNameByte_of_shortInteger? hn
  · exact isNameByte_of_ofName? h

theorem not_mem_of_ofText? {t : Text} {p : Int} (h : ofText? t = some p) {b : UInt8}
    (hb : isSpace b = false) (hname : isNameByte b = false) : b ∉ t := by
  intro hmem
  have htrue := isNameByte_of_ofText? h b (mem_trim hb hmem)
  rw [hname] at htrue
  cases htrue

end Pitch

/-! ### Parameters -/

namespace Shorthand

/-- What a run of digits writes, however long it is. -/
def digitRun? (t : Text) : Option Nat :=
  if !t.isEmpty && t.all isDigit then some (digitsValue t) else none

/-- The velocity of a mark, or of a run of digits that writes one. -/
def told? (param : Text) : Option Int :=
  let name := NoteValue.folded param
  DynamicMark.velocity? name <|>
    (digitRun? name).bind fun n => if 1 ≤ n ∧ n ≤ 127 then some (n : Int) else none

/-- The velocity that a parameter is taken for where it is no note value. -/
def taken? (param : Text) : Option Int := velocity? (NoteValue.folded param)

/-- A run of digits that writes no velocity, of which the machine word keeps one. -/
def Overflows (param : Text) : Prop :=
  let name := NoteValue.folded param
  ∃ n ∈ digitRun? name, 127 < n ∧ 1 ≤ wordValue name ∧ wordValue name ≤ 127

theorem wordValue_of_lt {t : Text} (h : digitsValue t < 2 ^ 31) : wordValue t = digitsValue t := by
  rw [wordValue]
  have hmin : min (digitsValue t : Int) 0x7FFFFFFFFFFFFFFF = digitsValue t := by omega
  rw [hmin]
  exact Int.bmod_eq_of_le_mul_two (by omega) (by omega)

theorem velocity?_of_digits {t : Text} (h : t.all isDigit = true) :
    DynamicMark.velocity? t = none := by
  have hmarks : ∀ m ∈ DynamicMark.all,
      m.short.all isDigit = false ∧ m.full.all isDigit = false := by decide
  have hspace : t.any isSpace = false := by
    rw [List.any_eq_false]
    intro b hb
    rw [isSpace_digit (List.all_eq_true.mp h b hb)]
    exact Bool.false_ne_true
  have hlower : lower t = t :=
    (List.map_congr_left fun b hb => lowerByte_digit (List.all_eq_true.mp h b hb)).trans
      (List.map_id t)
  have hnone (m : DynamicMark) (hm : m ∈ DynamicMark.all) :
      ¬(m.short == t || m.full == t) = true := by
    obtain ⟨hshort, hfull⟩ := hmarks m hm
    intro heq
    rcases Bool.or_eq_true_iff.mp heq with heq | heq
    · rw [eq_of_beq heq, h] at hshort
      cases hshort
    · rw [eq_of_beq heq, h] at hfull
      cases hfull
  rw [DynamicMark.velocity?, trim, strip_eq_self hspace, hlower, List.find?_eq_none.mpr hnone]
  rfl

theorem digitRun?_eq_some {t : Text} {n : Nat} :
    digitRun? t = some n ↔ t ≠ [] ∧ t.all isDigit = true ∧ digitsValue t = n := by
  rw [digitRun?]
  split_ifs with h
  · rw [Bool.and_eq_true, Bool.not_eq_true', List.isEmpty_eq_false_iff] at h
    simp only [h.1, h.2, Option.some.injEq, ne_eq, not_false_eq_true, true_and]
  · rw [Bool.and_eq_true, Bool.not_eq_true', List.isEmpty_eq_false_iff] at h
    exact ⟨nofun, fun hrun => absurd ⟨hrun.1, hrun.2.1⟩ h⟩

/-- What a parameter tells and what it is taken for, where it is a run of digits. -/
theorem told?_of_digitRun? {param : Text} {n : Nat}
    (h : digitRun? (NoteValue.folded param) = some n) :
    told? param = (if 1 ≤ n ∧ n ≤ 127 then some (n : Int) else none) ∧
      taken? param = (some (wordValue (NoteValue.folded param))).filter
        fun v => 1 ≤ v && v ≤ 127 := by
  obtain ⟨hne, hall, -⟩ := digitRun?_eq_some.mp h
  have hempty : (NoteValue.folded param).isEmpty = false := by simpa using hne
  have hmark := velocity?_of_digits hall
  constructor
  · rw [told?, hmark, h]
    rfl
  · simp only [taken?, velocity?, hmark, hempty, hall, Bool.not_false, Bool.and_self, if_true]
    rfl

theorem told?_of_not_digitRun? {param : Text}
    (h : digitRun? (NoteValue.folded param) = none) : told? param = taken? param := by
  have hrun : (!(NoteValue.folded param).isEmpty && (NoteValue.folded param).all isDigit) =
      false := by
    rw [digitRun?] at h
    split_ifs at h with hrun
    exact Bool.not_eq_true _ ▸ hrun
  simp only [told?, taken?, velocity?, h, hrun, Bool.false_eq_true, if_false, Option.bind_none]

/-- A velocity that a parameter tells is what it is taken for. -/
theorem taken?_of_told? {param : Text} {v : Int} (h : told? param = some v) :
    taken? param = some v := by
  cases hrun : digitRun? (NoteValue.folded param) with
  | none => exact told?_of_not_digitRun? hrun ▸ h
  | some n =>
      obtain ⟨htold, htaken⟩ := told?_of_digitRun? hrun
      obtain ⟨-, -, hn⟩ := digitRun?_eq_some.mp hrun
      rw [htold] at h
      split_ifs at h with hbounds
      rw [htaken, wordValue_of_lt (by omega), hn]
      cases h
      simp [Option.filter]
      omega

theorem told?_ne_taken?_iff (param : Text) : told? param ≠ taken? param ↔ Overflows param := by
  rw [Overflows]
  cases hrun : digitRun? (NoteValue.folded param) with
  | none => simp [told?_of_not_digitRun? hrun]
  | some n =>
      obtain ⟨htold, htaken⟩ := told?_of_digitRun? hrun
      obtain ⟨-, -, hn⟩ := digitRun?_eq_some.mp hrun
      simp only [Option.mem_some_iff, exists_eq_left']
      by_cases hbounds : 1 ≤ n ∧ n ≤ 127
      · rw [if_pos hbounds] at htold
        rw [htold, taken?_of_told? htold]
        exact iff_of_false (fun h => h rfl) (by omega)
      · have hzero (hn0 : n = 0) : wordValue (NoteValue.folded param) = 0 := by
          rw [wordValue_of_lt (by omega), hn, hn0]
          rfl
        rw [htold, if_neg hbounds, htaken, ne_comm, Option.ne_none_iff_exists']
        simp only [Option.filter_eq_some_iff, Option.some.injEq, Bool.and_eq_true,
          decide_eq_true_eq]
        exact ⟨fun ⟨v, hv, hkept⟩ => by omega, fun h => ⟨_, rfl, h.2⟩⟩

/-! ### The last of a kind -/

theorem concat_eq_append_cons {β : Type} {l front back : List β} {x y : β}
    (h : l ++ [y] = front ++ x :: back) :
    l = front ∧ y = x ∧ back = [] ∨
      ∃ between, back = between ++ [y] ∧ l = front ++ x :: between := by
  rcases List.eq_nil_or_concat back with rfl | ⟨between, z, rfl⟩
  · left
    simpa using h
  · right
    rw [List.concat_eq_append, ← List.cons_append, ← List.append_assoc] at h
    obtain ⟨hl, hz⟩ := List.append_inj' h rfl
    exact ⟨between, by rw [List.concat_eq_append, (List.cons.inj hz).1], hl⟩

/-- Where one reading takes all that another takes, and more, the last that the one takes is the
last that the other takes exactly if what was taken in addition and last says the same. -/
theorem getLast?_filterMap_eq_iff {β γ : Type} {f g : β → Option γ}
    (hfg : ∀ x v, g x = some v → f x = some v) (l : List β) :
    (l.filterMap f).getLast? = (l.filterMap g).getLast? ↔
      ∀ front x back, l = front ++ x :: back → (∀ r ∈ back, f r = none) → g x ≠ f x →
        (front.filterMap g).getLast? = f x := by
  induction l using List.reverseRecOn with
  | nil => simp
  | append_singleton l y ih =>
      rw [List.filterMap_append, List.filterMap_append, List.getLast?_append, List.getLast?_append]
      cases hf : f y with
      | none =>
          have hg : g y = none := by
            by_contra hsome
            obtain ⟨v, hv⟩ := Option.ne_none_iff_exists'.mp hsome
            rw [hfg y v hv] at hf
            cases hf
          simp only [List.filterMap_cons, hf, hg, List.filterMap_nil, List.getLast?_nil,
            Option.none_or, ih]
          constructor
          · intro h front x back heq hback hne
            rcases concat_eq_append_cons heq with ⟨-, rfl, -⟩ | ⟨between, rfl, hl⟩
            · exact absurd (hg.trans hf.symm) hne
            · exact h front x between hl (fun r hr => hback r (List.mem_append_left _ hr)) hne
          · intro h front x back heq hback hne
            refine h front x (back ++ [y]) (by rw [heq, List.append_assoc]; rfl) ?_ hne
            intro r hr
            rcases List.mem_append.mp hr with hr | hr
            · exact hback r hr
            · rw [List.mem_singleton.mp hr, hf]
      | some v =>
          -- Only the last element can be the last one that is taken.
          have hlast {front back : List β} {x : β} (heq : l ++ [y] = front ++ x :: back)
              (hback : ∀ r ∈ back, f r = none) : l = front ∧ y = x := by
            rcases concat_eq_append_cons heq with ⟨hl, hy, -⟩ | ⟨between, rfl, -⟩
            · exact ⟨hl, hy⟩
            · rw [hback y (by simp)] at hf
              cases hf
          cases hg : g y with
          | some w =>
              have hvw : v = w := Option.some.inj (hf.symm.trans (hfg y w hg))
              simp only [List.filterMap_cons, hf, hg, List.filterMap_nil, List.getLast?_singleton,
                Option.some_or, hvw, true_iff]
              intro front x back heq hback hne
              obtain ⟨-, rfl⟩ := hlast heq hback
              exact absurd (hg.trans (hvw ▸ hf.symm)) hne
          | none =>
              simp only [List.filterMap_cons, hf, hg, List.filterMap_nil, List.getLast?_singleton,
                List.getLast?_nil, Option.some_or, Option.none_or]
              constructor
              · intro h front x back heq hback hne
                obtain ⟨rfl, rfl⟩ := hlast heq hback
                rw [hf, h]
              · intro h
                have hsame := h l y [] rfl (fun r hr => absurd hr List.not_mem_nil)
                  (by rw [hg, hf]; exact nofun)
                rw [hsame, hf]

variable {α : Type} [Quantity α]

/-- The note value that a parameter names. -/
def noteValue? (param : Text) : Option α := NoteValue.named? (NoteValue.folded param)

variable (α) in
/-- The parameters that are no note values. -/
def others (params : List Text) : List Text :=
  params.filter fun param => (noteValue? param : Option α).isNone

theorem foldl_apply (params : List Text) (s : Shorthand α) :
    params.foldl apply s = ⟨s.pitch, (params.filterMap noteValue?).getLast?.or s.duration,
      ((others α params).filterMap taken?).getLast?.or s.velocity⟩ := by
  induction params using List.reverseRecOn with
  | nil => rfl
  | append_singleton params param ih =>
      rw [List.foldl_append, ih, List.foldl_cons, List.foldl_nil, apply]
      simp only [List.filterMap_append, others, List.filter_append, List.getLast?_append]
      rw [← noteValue?]
      cases hnote : (noteValue? param : Option α) with
      | some d => simp [hnote]
      | none =>
          cases htaken : taken? param with
          | some v =>
              have hvelocity : velocity? (NoteValue.folded param) = some v := htaken
              simp [hnote, htaken, hvelocity]
          | none =>
              have hvelocity : velocity? (NoteValue.folded param) = none := htaken
              simp [hnote, htaken, hvelocity]

/-- A shorthand with the given parameters. -/
def written (head : Text) (params : List Text) : Text :=
  head ++ byte '(' :: ([byte ','].intercalate params ++ [byte ')'])

theorem split_written {head : Text} {params : List Text}
    (hhead : byte '(' ∉ head ∧ byte ')' ∉ head) (hparams : ∀ param ∈ params, byte ')' ∉ param) :
    split (written head params) = (head, [byte ','].intercalate params) := by
  have hclose : byte ')' ∉ [byte ','].intercalate params :=
    not_mem_intercalate (by decide) hparams
  have hcontains : head.contains (byte ')') = false := by simpa using hhead.2
  rw [split, written, cutAt?_append hhead.1]
  simp only [cutAt?_append hclose, hcontains, Bool.false_eq_true, if_false]

/-- No parameters are read as an empty one is, and that one has no effect. -/
theorem foldl_apply_splitOn {params : List Text} (h : ∀ param ∈ params, byte ',' ∉ param)
    (s : Shorthand α) :
    (splitOn (byte ',') ([byte ','].intercalate params)).foldl apply s = params.foldl apply s := by
  rw [splitOn_eq]
  cases params with
  | nil => rfl
  | cons param params => rw [List.splitOn_intercalate (byte ',') h (List.cons_ne_nil _ _)]

/-- A shorthand whose pitch can be read is read with all its parameters: the last note value counts,
and of the others the last that is taken for a velocity. It is the last velocity that the others
tell unless the run of digits that counts is too large for a word and says something new. -/
theorem read?_written {head : Text} {p : Int}
    (hhead : Pitch.ofValue? (.string head : Json.Value α) = some p) {params : List Text}
    (hparams : ∀ param ∈ params, byte ')' ∉ param ∧ byte ',' ∉ param) :
    (read? (written head params) : Option (Shorthand α)) =
        some ⟨p, (params.filterMap noteValue?).getLast?,
          ((others α params).filterMap taken?).getLast?⟩ ∧
      (((others α params).filterMap taken?).getLast? =
          ((others α params).filterMap told?).getLast? ↔
        ∀ front param back, others α params = front ++ param :: back →
          (∀ later ∈ back, taken? later = none) → Overflows param →
            (front.filterMap told?).getLast? = taken? param) := by
  have hpitch : Pitch.ofText? head = some p := hhead
  have hbrackets : byte '(' ∉ head ∧ byte ')' ∉ head :=
    ⟨Pitch.not_mem_of_ofText? hpitch (by decide) (by decide),
      Pitch.not_mem_of_ofText? hpitch (by decide) (by decide)⟩
  constructor
  · rw [read?, split_written hbrackets fun param h => (hparams param h).1]
    simp only [hpitch]
    change some _ = some _
    rw [foldl_apply_splitOn fun param h => (hparams param h).2, foldl_apply]
    simp
  · simp only [← told?_ne_taken?_iff]
    exact getLast?_filterMap_eq_iff (fun _ _ => taken?_of_told?) _

/-- The last parameter is a hundred more than a word can count. -/
def countedTooFar : List Text := [" DQ ", "mf", "", "4294967396"]

theorem read?_countedTooFar :
    Pitch.ofValue? (.string "C#4" : Json.Value Rat) = some 61 ∧
      (∀ param ∈ countedTooFar, byte ')' ∉ param ∧ byte ',' ∉ param) ∧
      (read? (written "C#4" countedTooFar) : Option (Shorthand Rat)) =
        some ⟨61, some 1.5, some 100⟩ ∧
      ((others Rat countedTooFar).filterMap told?).getLast? = some 80 := by
  have hhead : Pitch.ofValue? (.string "C#4" : Json.Value Rat) = some 61 := by decide
  have hparams : ∀ param ∈ countedTooFar, byte ')' ∉ param ∧ byte ',' ∉ param := by decide
  exact ⟨hhead, hparams, (read?_written hhead hparams).1, by decide⟩

end Shorthand

end MusicPart
