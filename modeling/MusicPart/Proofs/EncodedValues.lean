import MusicPart.Proofs.Documents
import MusicPart.Proofs.Layouts
import MusicPart.Proofs.Printable
import MusicPart.Proofs.Surrogates

/-!
# Values in order

The texts and the keys of a value that is read of a sound text are in order. A value is written in
order if and only if all its texts and keys are, at any indent, since all else that is written is
ASCII and stands around them.
-/

namespace MusicPart.Json

open Text Text.Utf8
open Literal (Sound quote)

variable {α : Type}

namespace Value

/-- All texts and all keys are in order. -/
inductive Encoded : Value α → Prop
  | null : Encoded .null
  | bool (b : Bool) : Encoded (.bool b)
  | number (x : α) : Encoded (.number x)
  | string {s : Text} (h : isValid s = true) : Encoded (.string s)
  | array {es : List (Value α)} (h : ∀ v ∈ es, Encoded v) : Encoded (.array es)
  | object {ms : List (Text × Value α)} (hkeys : ∀ m ∈ ms, isValid m.1 = true)
      (h : ∀ m ∈ ms, Encoded m.2) : Encoded (.object ms)

theorem encoded_string {s : Text} : Encoded (.string s : Value α) ↔ isValid s = true :=
  ⟨fun h => by cases h; assumption, .string⟩

theorem encoded_array {es : List (Value α)} : Encoded (.array es) ↔ ∀ v ∈ es, Encoded v :=
  ⟨fun h => by cases h; assumption, .array⟩

/-- The keys of members and what stands under them are in order. -/
def EncodedMembers (ms : List (Text × Value α)) : Prop :=
  ∀ m ∈ ms, isValid m.1 = true ∧ Encoded m.2

theorem encoded_object {ms : List (Text × Value α)} :
    Encoded (.object ms) ↔ EncodedMembers ms := by
  constructor
  · rintro (_ | _ | _ | _ | _ | ⟨hkeys, h⟩)
    exact fun m hm => ⟨hkeys m hm, h m hm⟩
  · exact fun h => .object (fun m hm => (h m hm).1) fun m hm => (h m hm).2

namespace EncodedMembers

variable {ms ns : List (Text × Value α)}

theorem nil : EncodedMembers ([] : List (Text × Value α)) := List.forall_mem_nil _

theorem cons {key : Text} {v : Value α} (hkey : isValid key = true) (hv : Encoded v)
    (h : EncodedMembers ms) : EncodedMembers ((key, v) :: ms) :=
  List.forall_mem_cons.mpr ⟨⟨hkey, hv⟩, h⟩

theorem append (hm : EncodedMembers ms) (hn : EncodedMembers ns) : EncodedMembers (ms ++ ns) :=
  List.forall_mem_append.mpr ⟨hm, hn⟩

end EncodedMembers

namespace Encoded

variable {v w new : Value α} {key : Text}

theorem of_mem_elements (h : Encoded v) (hw : w ∈ v.elements) : Encoded w := by
  cases h with
  | array h => exact h w hw
  | _ => exact absurd hw List.not_mem_nil

theorem of_mem_members (h : Encoded v) {m : Text × Value α} (hm : m ∈ v.members) :
    isValid m.1 = true ∧ Encoded m.2 := by
  cases h with
  | object hkeys h => exact ⟨hkeys m hm, h m hm⟩
  | _ => exact absurd hm List.not_mem_nil

theorem of_find? (h : Encoded v) (hw : v.find? key = some w) : Encoded w := by
  obtain ⟨m, hm, rfl⟩ := exists_mem_of_find? hw
  exact (h.of_mem_members hm).2

theorem of_present? (h : Encoded v) (hw : v.present? key = some w) : Encoded w :=
  h.of_find? (Option.filter_eq_some_iff.mp hw).1

theorem of_first? (h : Encoded v) {keys : List Text} (hw : v.first? keys = some w) : Encoded w := by
  obtain ⟨key, -, hkey⟩ := List.exists_of_findSome?_eq_some hw
  exact h.of_present? hkey

theorem isValid_of_text? (h : Encoded v) {t : Text} (ht : v.text? = some t) : isValid t = true := by
  cases h with
  | string h =>
      cases ht
      exact h
  | _ => cases ht

theorem insert {ms : List (Text × Value α)} (h : Encoded (.object ms)) (hkey : isValid key = true)
    (hv : Encoded v) : Encoded (.object (Value.insert key v ms)) := by
  rw [encoded_object] at h ⊢
  induction ms with
  | nil => exact .cons hkey hv .nil
  | cons m ms ih =>
      obtain ⟨hm, hms⟩ := List.forall_mem_cons.mp h
      rw [Value.insert]
      split
      · exact List.forall_mem_cons.mpr ⟨⟨hm.1, hv⟩, hms⟩
      · exact List.forall_mem_cons.mpr ⟨hm, ih hms⟩

theorem set (h : Encoded v) (hkey : isValid key = true) (hnew : Encoded new) :
    Encoded (v.set key new) := by
  cases h with
  | null => exact encoded_object.mpr (.cons hkey hnew .nil)
  | object hkeys h => exact (Encoded.object hkeys h).insert hkey hnew
  | bool b => exact .bool b
  | number x => exact .number x
  | string h => exact .string h
  | array h => exact .array h

end Encoded

end Value

/-! ### Reading -/

namespace Literal

/-- ASCII bytes that open no literal. -/
def Between (t : Text) : Prop := ∀ b ∈ t, b < 0x80 ∧ b ≠ quote

instance (t : Text) : Decidable (Between t) :=
  decidable_of_iff (t.all (fun b => b < 0x80 && b != quote) = true) (by simp [Between])

namespace Sound

theorem of_append {s t : Text} (hs : Between s) (h : Sound (s ++ t)) : Sound t := by
  induction s with
  | nil => exact h
  | cons b s ih =>
      obtain ⟨hb, hs⟩ := List.forall_mem_cons.mp hs
      exact ih hs (tail hb.1 hb.2 h)

theorem dropWhile {p : UInt8 → Bool} (hp : ∀ b, p b = true → b < 0x80 ∧ b ≠ quote) {t : Text}
    (h : Sound t) : Sound (t.dropWhile p) := by
  rw [← List.takeWhile_append_dropWhile (p := p) (l := t)] at h
  exact of_append (fun b hb => hp b (List.mem_takeWhile_imp hb)) h

theorem skip {t : Text} (h : Sound t) : Sound (Reader.skip t) :=
  h.dropWhile (forall_byte (by decide +kernel))

theorem read {t s rest : Text} (h : Sound t) (hs : Literal.read t = .ok (s, rest)) :
    isValid s = true ∧ Sound rest := by
  cases t with
  | nil => exact nomatch hs
  | cons b t =>
      rw [Literal.read] at hs
      split at hs
      · rename_i hb
        obtain ⟨⟨ps, rest'⟩, hps, hs⟩ := bind_eq_ok.mp hs
        cases hs
        exact pieces (eq_of_beq hb ▸ h) hps
      · cases hs

end Sound

end Literal

namespace Reader

open Value (Encoded)

variable {value : Text → Except Failure (Value α × Text)}
  (hvalue : ∀ {t v rest}, Sound t → value t = .ok (v, rest) → Encoded v ∧ Sound rest)

include hvalue

theorem encoded_elements : ∀ {n : Nat} {t : Text} {vs : List (Value α)} {rest : Text}, Sound t →
    elements value n t = .ok (vs, rest) → (∀ v ∈ vs, Encoded v) ∧ Sound rest
  | 0, _, _, _, _, h => nomatch h
  | n + 1, t, vs, rest, ht, h => by
      rw [elements] at h
      obtain ⟨⟨v, t'⟩, hv, h⟩ := bind_eq_ok.mp h
      obtain ⟨hencoded, ht'⟩ := hvalue ht hv
      have hskip := ht'.skip
      dsimp only at h
      split at h
      · cases h
      · rename_i b after hb
        rw [hb] at hskip
        split at h
        · rename_i hcomma
          rw [eq_of_beq hcomma] at hskip
          obtain ⟨⟨ws, t''⟩, hws, h⟩ := bind_eq_ok.mp h
          cases h
          obtain ⟨hencodeds, hrest⟩ := encoded_elements (hskip.tail (by decide) (by decide)) hws
          exact ⟨List.forall_mem_cons.mpr ⟨hencoded, hencodeds⟩, hrest⟩
        · split at h
          · rename_i hbracket
            rw [eq_of_beq hbracket] at hskip
            cases h
            exact ⟨List.forall_mem_singleton.mpr hencoded, hskip.tail (by decide) (by decide)⟩
          · cases h

theorem encoded_members : ∀ {n : Nat} {done : List (Text × Value α)} {t : Text}
    {ms : List (Text × Value α)} {rest : Text}, Encoded (.object done) → Sound t →
    members value n done t = .ok (ms, rest) → Encoded (.object ms) ∧ Sound rest
  | 0, _, _, _, _, _, _, h => nomatch h
  | n + 1, done, t, ms, rest, hdone, ht, h => by
      rw [members] at h
      obtain ⟨⟨key, t'⟩, hkey, h⟩ := bind_eq_ok.mp h
      obtain ⟨hkey, ht'⟩ := ht.skip.read hkey
      have hcolon := ht'.skip
      dsimp only at h
      split at h
      · cases h
      · rename_i c after hc
        rw [hc] at hcolon
        split at h
        · cases h
        · rename_i hne
          have hc : c = byte ':' := by simpa using hne
          rw [hc] at hcolon
          obtain ⟨⟨v, t''⟩, hv, h⟩ := bind_eq_ok.mp h
          obtain ⟨hencoded, ht''⟩ := hvalue (hcolon.tail (by decide) (by decide)) hv
          -- The members so far are in order, which is what the recursion carries along.
          have hinserted := hdone.insert hkey hencoded
          have hskip := ht''.skip
          dsimp only at h
          split at h
          · cases h
          · rename_i b after hb
            rw [hb] at hskip
            split at h
            · rename_i hcomma
              rw [eq_of_beq hcomma] at hskip
              exact encoded_members hinserted (hskip.tail (by decide) (by decide)) h
            · split at h
              · rename_i hbrace
                rw [eq_of_beq hbrace] at hskip
                cases h
                exact ⟨hinserted, hskip.tail (by decide) (by decide)⟩
              · cases h

theorem encoded_of_array {t : Text} {v : Value α} {rest : Text} (ht : Sound t)
    (h : array value t = .ok (v, rest)) : Encoded v ∧ Sound rest := by
  have hread {n : Nat} {t : Text} {v : Value α} {rest : Text} (ht : Sound t)
      (h : (elements value n t >>= fun r => .ok (Value.array r.1, r.2)) = Except.ok (v, rest)) :
      Encoded v ∧ Sound rest := by
    obtain ⟨⟨vs, t'⟩, hvs, h⟩ := bind_eq_ok.mp h
    obtain ⟨hencoded, hrest⟩ := encoded_elements hvalue ht hvs
    cases h
    exact ⟨.array hencoded, hrest⟩
  have hskip := ht.skip
  rw [array] at h
  split at h
  · rename_i b after hb
    rw [hb] at hskip
    split at h
    · rename_i hbracket
      rw [eq_of_beq hbracket] at hskip
      cases h
      exact ⟨.array (List.forall_mem_nil _), hskip.tail (by decide) (by decide)⟩
    · exact hread hskip h
  · rename_i hnil
    exact hread (hnil ▸ hskip) h

theorem encoded_of_object {t : Text} {v : Value α} {rest : Text} (ht : Sound t)
    (h : object value t = .ok (v, rest)) : Encoded v ∧ Sound rest := by
  have hempty : Encoded (.object [] : Value α) :=
    .object (List.forall_mem_nil _) (List.forall_mem_nil _)
  have hread {n : Nat} {t : Text} {v : Value α} {rest : Text} (ht : Sound t)
      (h : (members value n [] t >>= fun r => .ok (Value.object r.1, r.2)) = Except.ok (v, rest)) :
      Encoded v ∧ Sound rest := by
    obtain ⟨⟨ms, t'⟩, hms, h⟩ := bind_eq_ok.mp h
    obtain ⟨hencoded, hrest⟩ := encoded_members hvalue hempty ht hms
    cases h
    exact ⟨hencoded, hrest⟩
  have hskip := ht.skip
  rw [object] at h
  split at h
  · rename_i b after hb
    rw [hb] at hskip
    split at h
    · rename_i hbrace
      rw [eq_of_beq hbrace] at hskip
      cases h
      exact ⟨hempty, hskip.tail (by decide) (by decide)⟩
    · exact hread hskip h
  · rename_i hnil
    exact hread (hnil ▸ hskip) h

omit hvalue

theorem encoded_of_literal {word t : Text} (hword : Literal.Between word) {w v : Value α}
    (hw : Encoded w) {rest : Text} (ht : Sound t) (h : literal word w t = .ok (v, rest)) :
    Encoded v ∧ Sound rest := by
  obtain ⟨hstarts, h⟩ | ⟨-, h⟩ := ite_eq_iff.mp h
  · obtain ⟨after, rfl⟩ := List.isPrefixOf_iff_prefix.mp hstarts
    cases h
    rw [List.drop_left]
    exact ⟨hw, ht.of_append hword⟩
  · cases h

variable [Quantity α]

theorem encoded_of_number {t : Text} {v : Value α} {rest : Text} (ht : Sound t)
    (h : number t = .ok (v, rest)) : Encoded v ∧ Sound rest := by
  rw [number] at h
  dsimp only at h
  split at h
  · cases h
    rw [List.span_eq_takeWhile_dropWhile]
    exact ⟨.number _, ht.dropWhile (Literal.forall_byte (by decide +kernel))⟩
  · cases h

/-- What is read of a sound text is in order, and what is left of the text is sound. -/
theorem encoded_value : ∀ {levels : Nat} {t : Text} {v : Value α} {rest : Text}, Sound t →
    Reader.value levels t = .ok (v, rest) → Encoded v ∧ Sound rest
  | 0, _, _, _, _, h => nomatch h
  | levels + 1, t, v, rest, ht, h => by
      have hskip := ht.skip
      rw [Reader.value] at h
      split at h
      · cases h
      · rename_i b after hb
        rw [hb] at hskip
        split at h
        · rename_i hbrace
          exact encoded_of_object encoded_value
            ((eq_of_beq hbrace ▸ hskip).tail (by decide) (by decide)) h
        · split at h
          · rename_i hbracket
            exact encoded_of_array encoded_value
              ((eq_of_beq hbracket ▸ hskip).tail (by decide) (by decide)) h
          · split at h
            · obtain ⟨⟨s, t'⟩, hs, h⟩ := bind_eq_ok.mp h
              obtain ⟨hvalid, hrest⟩ := hskip.read hs
              cases h
              exact ⟨.string hvalid, hrest⟩
            · split at h
              · exact encoded_of_literal (by decide) (.bool true) hskip h
              · split at h
                · exact encoded_of_literal (by decide) (.bool false) hskip h
                · split at h
                  · exact encoded_of_literal (by decide) .null hskip h
                  · exact encoded_of_number hskip h

end Reader

theorem encoded_parse [Quantity α] {t : Text} (ht : Sound t) {v : Value α}
    (h : parse t = .ok v) : v.Encoded := by
  obtain ⟨rest, hvalue⟩ := value_of_parse h
  exact (Reader.encoded_value ht hvalue).1

/-! ### Writing -/

theorem ascii_lineBreak (indent : Int) (level : Nat) : Ascii (lineBreak indent level) := by
  rw [lineBreak]
  split
  · refine .cons (by decide) fun b hb => ?_
    rw [List.eq_of_mem_replicate hb]
    decide
  · exact .nil

theorem ascii_comma (wanted : Bool) : Ascii (comma wanted) := by
  revert wanted
  decide

theorem exists_colon_eq (indent : Int) :
    ∃ t, colon indent = byte ':' :: t ∧ Ascii t := by
  rw [colon]
  split
  · exact ⟨[0x20], by decide, by decide⟩
  · exact ⟨[], by decide, .nil⟩

theorem ascii_closing (indent : Int) (level : Nat) (nonempty : Bool) {bracket : UInt8}
    (h : bracket < 0x80) : Ascii (closing indent level nonempty bracket) := by
  refine .append ?_ (.cons h .nil)
  split
  · exact ascii_lineBreak indent level
  · exact .nil

namespace Value

variable [Quantity α]

/-! What follows an element begins with a comma, a line break or a bracket. -/

theorem isValid_append_comma (s t : Text) :
    isValid (s ++ (comma true ++ t)) = (isValid s && isValid (comma true ++ t)) := by
  rw [(ascii_comma true).isValid_append]
  exact isValid_append_cons (by decide)

theorem isValid_append_closing (indent : Int) (level : Nat) {bracket : UInt8}
    (h : bracket < 0x80) (s : Text) : isValid (s ++ closing indent level true bracket) =
      (isValid s && isValid (closing indent level true bracket)) := by
  rw [(ascii_closing indent level true h).append_isValid, (ascii_closing indent level true h).isValid,
    Bool.and_true]

theorem isValid_append_printElements (indent : Int) (level : Nat) (s : Text)
    (vs : List (Value α)) : isValid (s ++ printElements indent level true vs) =
      (isValid s && isValid (printElements indent level true vs)) := by
  cases vs with
  | nil => exact isValid_append_closing indent level (by decide) s
  | cons v vs =>
      rw [printElements, List.append_assoc, List.append_assoc]
      exact isValid_append_comma s _

theorem isValid_append_printMembers (indent : Int) (level : Nat) (s : Text)
    (ms : List (Text × Value α)) : isValid (s ++ printMembers indent level true ms) =
      (isValid s && isValid (printMembers indent level true ms)) := by
  cases ms with
  | nil => exact isValid_append_closing indent level (by decide) s
  | cons m ms =>
      rw [printMembers, List.append_assoc, List.append_assoc, List.append_assoc, List.append_assoc]
      exact isValid_append_comma s _

mutual

theorem isValid_print (indent : Int) : ∀ (level : Nat) (v : Value α),
    isValid (v.print indent level) = true ↔ Encoded v
  | _, .null => iff_of_true rfl .null
  | _, .bool true => iff_of_true rfl (.bool true)
  | _, .bool false => iff_of_true rfl (.bool false)
  | _, .number x =>
      iff_of_true (Ascii.mono (SixPlaces.render_subset x) (by decide)).isValid (.number x)
  | _, .string s => by rw [print, Utf8.isValid_render, encoded_string]
  | level, .array es => by
      rw [print, isValid_cons_of_lt (by decide), encoded_array]
      exact isValid_printElements indent level false es
  | level, .object ms => by
      rw [print, isValid_cons_of_lt (by decide), encoded_object]
      exact isValid_printMembers indent level false ms

theorem isValid_printElements (indent : Int) : ∀ (level : Nat) (nonempty : Bool)
    (vs : List (Value α)), isValid (printElements indent level nonempty vs) = true ↔
      ∀ v ∈ vs, Encoded v
  | level, nonempty, [] =>
      iff_of_true (ascii_closing indent level nonempty (by decide)).isValid (List.forall_mem_nil _)
  | level, nonempty, v :: vs => by
      have hfront := (ascii_comma nonempty).append (ascii_lineBreak indent (level + 1))
      rw [printElements, isValid_append_printElements, hfront.isValid_append, Bool.and_eq_true,
        isValid_print indent (level + 1) v, isValid_printElements indent level true vs,
        List.forall_mem_cons]

theorem isValid_printMembers (indent : Int) : ∀ (level : Nat) (nonempty : Bool)
    (ms : List (Text × Value α)), isValid (printMembers indent level nonempty ms) = true ↔
      EncodedMembers ms
  | level, nonempty, [] =>
      iff_of_true (ascii_closing indent level nonempty (by decide)).isValid (List.forall_mem_nil _)
  | level, nonempty, (key, v) :: ms => by
      have hfront := (ascii_comma nonempty).append (ascii_lineBreak indent (level + 1))
      have hkey : isValid (Literal.render key ++ colon indent ++ print indent (level + 1) v) =
          (isValid key && isValid (print indent (level + 1) v)) := by
        obtain ⟨t, hcolon, ht⟩ := exists_colon_eq indent
        rw [hcolon, List.append_assoc, List.cons_append, isValid_append_cons (by decide),
          Utf8.isValid_render, ht.isValid_append]
      rw [printMembers, isValid_append_printMembers, List.append_assoc, List.append_assoc,
        hfront.isValid_append, ← List.append_assoc, hkey, Bool.and_eq_true, Bool.and_eq_true,
        isValid_print indent (level + 1) v, isValid_printMembers indent level true ms,
        EncodedMembers, EncodedMembers, List.forall_mem_cons]

end

/-- A value is written in order if and only if its texts and keys are in order. -/
theorem isValid_render (indent : Int) (v : Value α) :
    isValid (v.render indent) = true ↔ Encoded v := by
  rw [render_eq_print, isValid_print]

end Value

end MusicPart.Json
