import Mathlib
import MusicPart.Proofs.Layouts
import MusicPart.Proofs.Literals
import MusicPart.Proofs.Numerals
import MusicPart.Proofs.Sessions
import MusicPart.Quantity.Exact

/-!
# Printable bundles

A bundle on one line has no control byte. What is laid out is made of brackets, commas, colons and
the texts of events; the text of a key or of a string is escaped byte by byte, and the text of a
number has digits, signs and points. A reader that stops at a zero byte sees the whole bundle.
-/

namespace MusicPart

/-! ### Printable texts -/

namespace Text

/-- No byte is below the space. -/
def Printable (t : Text) : Prop := ∀ b ∈ t, 0x20 ≤ b

instance (t : Text) : Decidable t.Printable :=
  decidable_of_iff (t.all (0x20 ≤ ·) = true) (by simp [Printable])

namespace Printable

variable {s t : Text}

theorem nil : Printable [] := List.forall_mem_nil _

theorem cons {b : UInt8} (hb : 0x20 ≤ b) (h : t.Printable) : Printable (b :: t) :=
  List.forall_mem_cons.mpr ⟨hb, h⟩

theorem append (hs : s.Printable) (ht : t.Printable) : (s ++ t).Printable :=
  List.forall_mem_append.mpr ⟨hs, ht⟩

theorem mono (h : s ⊆ t) (ht : t.Printable) : s.Printable := fun b hb => ht b (h hb)

end Printable

/-- The length of a text as a reader finds it who stops at the first zero byte, when one is put
behind the text. -/
def lengthToZero (t : Text) : Nat := (beforeNul (t ++ [0])).length

theorem lengthToZero_eq {t : Text} (h : t.Printable) : lengthToZero t = t.length := by
  have hbytes : ∀ b ∈ t, (b != 0) = true := by
    intro b hb
    rw [bne_iff_ne]
    rintro rfl
    exact absurd (h 0 hb) (by decide)
  rw [lengthToZero, beforeNul, List.takeWhile_append_of_pos hbytes]
  exact congrArg List.length (List.append_nil t)

end Text

open Text (Printable)

/-! ### Numbers -/

namespace SixPlaces

/-- The bytes that numbers are written with. -/
def bytes : Text := "0123456789-.inful"

theorem ofNat_subset (n : Nat) : Text.ofNat n ⊆ bytes := by
  have hdigit (b : UInt8) : Text.isDigit b = true → b ∈ bytes := by
    revert b
    exact Json.Literal.forall_byte (by decide +kernel)
  exact fun b hb => hdigit b (Text.isDigit_of_mem_ofNat hb)

theorem placed_subset {digits : Text} (h : digits ⊆ bytes) (places : Nat) :
    Numeral.placed places digits ⊆ bytes := by
  have hpadded :
      List.replicate (places + 1 - digits.length) (Text.byte '0') ++ digits ⊆ bytes := by
    refine List.append_subset.mpr ⟨fun b hb => ?_, h⟩
    rw [List.eq_of_mem_replicate hb]
    decide
  exact List.append_subset.mpr ⟨List.Subset.trans (List.take_subset _ _) hpadded,
    List.cons_subset.mpr ⟨by decide, List.Subset.trans (List.drop_subset _ _) hpadded⟩⟩

theorem fixed_subset (n : Int) : fixed n ⊆ bytes := by
  have hplaced := placed_subset (ofNat_subset n.natAbs) 6
  rw [fixed, Numeral.withSign]
  split
  · exact List.cons_subset.mpr ⟨by decide, hplaced⟩
  · exact hplaced

theorem trimZeros_subset (t : Text) : trimZeros t ⊆ t := by
  have hdigits : Text.dropEndWhile (· == Text.byte '0') t ⊆ t := by
    intro b hb
    exact List.mem_reverse.mp ((List.dropWhile_sublist _).subset (List.mem_reverse.mp hb))
  rw [trimZeros]
  split
  · dsimp only
    split
    · exact fun b hb => hdigits (List.mem_of_mem_dropLast hb)
    · exact hdigits
  · exact List.Subset.refl t

theorem render_subset {α : Type} [Quantity α] (x : α) : render x ⊆ bytes := by
  rw [render]
  split
  · decide
  · dsimp only
    split
    · exact List.Subset.trans (trimZeros_subset _)
        (List.Subset.trans (List.take_subset _ _) (fixed_subset _))
    · split
      · decide
      · decide

theorem printable_render {α : Type} [Quantity α] (x : α) : (render x).Printable :=
  .mono (render_subset x) (by decide)

end SixPlaces

namespace Json

/-! ### Strings -/

theorem Literal.printable_escapeByte (b : UInt8) : (escapeByte b).Printable := by
  revert b
  exact forall_byte (by decide +kernel)

theorem Literal.printable_render (t : Text) : (render t).Printable := by
  have hescape : (escape t).Printable := by
    intro b hb
    obtain ⟨c, -, hb⟩ := List.mem_flatMap.mp hb
    exact printable_escapeByte c b hb
  exact .cons (by decide) (.append hescape (by decide))

/-! ### Events -/

/-- A key is escaped when it is laid out; every other text has to be printable before that. -/
def Event.Printable : Event → Prop
  | .scalar text => text.Printable
  | _ => True

namespace Layout

theorem printable_separator (l : Layout) : (separator 0 l).Printable := by
  rw [separator]
  split
  · exact .nil
  · split
    · exact .nil
    · split
      · exact .cons (by decide) .nil
      · exact .nil

theorem printable_close {bracket : UInt8} (h : 0x20 ≤ bracket) (l : Layout) :
    (close 0 bracket l).2.Printable := by
  refine .append ?_ (.cons h .nil)
  split
  · exact .nil
  · exact .nil

theorem printable_step (l : Layout) {e : Event} (h : e.Printable) : (step 0 l e).2.Printable := by
  have hseparator := printable_separator l
  cases e with
  | beginObject => exact hseparator.append (by decide)
  | endObject => exact printable_close (by decide) l
  | beginArray => exact hseparator.append (by decide)
  | endArray => exact printable_close (by decide) l
  | key name => exact (hseparator.append (Literal.printable_render name)).append (by decide)
  | scalar text => exact hseparator.append h

theorem printable_text (l : Layout) {es : List Event} (h : ∀ e ∈ es, e.Printable) :
    (text 0 l es).Printable := by
  induction es generalizing l with
  | nil => exact .nil
  | cons e es ih =>
      obtain ⟨he, hes⟩ := List.forall_mem_cons.mp h
      rw [text_cons]
      exact (printable_step l he).append (ih _ hes)

end Layout

/-! ### Values -/

namespace Value

variable {α : Type} [Quantity α]

mutual

theorem printable_events : ∀ (v : Value α), ∀ e ∈ v.events, e.Printable
  | .null => List.forall_mem_singleton.mpr (by decide : Text.Printable "null")
  | .bool true => List.forall_mem_singleton.mpr (by decide : Text.Printable "true")
  | .bool false => List.forall_mem_singleton.mpr (by decide : Text.Printable "false")
  | .number x => List.forall_mem_singleton.mpr (SixPlaces.printable_render x)
  | .string s => List.forall_mem_singleton.mpr (Literal.printable_render s)
  | .array es => List.forall_mem_cons.mpr ⟨trivial, List.forall_mem_append.mpr
      ⟨printable_elementEvents es, List.forall_mem_singleton.mpr trivial⟩⟩
  | .object ms => List.forall_mem_cons.mpr ⟨trivial, List.forall_mem_append.mpr
      ⟨printable_memberEvents ms, List.forall_mem_singleton.mpr trivial⟩⟩

theorem printable_elementEvents : ∀ (es : List (Value α)), ∀ e ∈ elementEvents es, e.Printable
  | [] => List.forall_mem_nil _
  | v :: vs => List.forall_mem_append.mpr ⟨printable_events v, printable_elementEvents vs⟩

theorem printable_memberEvents : ∀ (ms : List (Text × Value α)), ∀ e ∈ memberEvents ms, e.Printable
  | [] => List.forall_mem_nil _
  | (_, v) :: ms => List.forall_mem_cons.mpr
      ⟨trivial, List.forall_mem_append.mpr ⟨printable_events v, printable_memberEvents ms⟩⟩

end

theorem printable_render (v : Value α) : (v.render 0).Printable :=
  Layout.printable_text {} v.printable_events

end Value

end Json

/-! ### Bundles that are handed out -/

variable {α : Type} [Quantity α]

namespace Session

/-- The bundle of a session can be handed out as it is. -/
def Prints (s : Session α) : Prop := s.bundle.Printable

theorem prints_compile (s : Session α) (t : Text) : (s.compile t).1.Prints := by
  cases hread : (Request.read t : Except Refusal (Request α)) with
  | error e =>
      rw [compile, hread]
      exact .nil
  | ok r =>
      obtain ⟨p, -, hcompile⟩ := compile_of_read hread s
      rw [hcompile]
      exact Json.Value.printable_render p.bundle

end Session

namespace Sessions

theorem prints_compile {s : Sessions α} {name : Text}
    (h : ∀ session, s.find? name = some session → session.Prints) (other : Text)
    (request : Option Text) (session : Session α)
    (hsession : (s.compile other request).1.find? name = some session) : session.Prints := by
  cases hother : s.find? other with
  | none =>
      rw [compile_of_find?_eq_none hother] at hsession
      exact h session hsession
  | some before =>
      cases request with
      | none =>
          rw [compile_none] at hsession
          exact h session hsession
      | some t =>
          rw [compile_of_find? hother, find?] at hsession
          by_cases hname : other = name
          · rw [hname, Table.find?_insert_self] at hsession
            cases hsession
            exact before.prints_compile t
          · rw [Table.find?_insert_of_ne hname] at hsession
            exact h session hsession

theorem prints_compileAll {s : Sessions α} {name : Text}
    (h : ∀ session, s.find? name = some session → session.Prints)
    (requests : List (Text × Option Text)) :
    ∀ session, (s.compileAll requests).find? name = some session → session.Prints := by
  induction requests generalizing s with
  | nil => exact h
  | cons r requests ih => exact ih (prints_compile h r.1 r.2)

/-- Every part that is compiled has a bundle without control bytes. So has every bundle that a
session hands out after any requests, and it is as long as it looks to a reader who stops at a zero
byte. -/
theorem bundle_printable (i : Instrument α) (settings : Settings α) (candidate : Json.Value α)
    (s : Sessions α) (name : Text) (requests : List (Text × Option Text)) :
    (∀ p, Part.compile i settings candidate = .ok p → (p.bundle.render 0).Printable) ∧
      ∀ b, ((s.create name).compileAll requests).bundle? name = some b →
        b.Printable ∧ Text.lengthToZero b = b.length := by
  refine ⟨fun p _ => Json.Value.printable_render p.bundle, fun b hb => ?_⟩
  have hfresh : ∀ session, (s.create name).find? name = some session → session.Prints := by
    intro session hsession
    rw [find?, create, Table.find?_insert_self] at hsession
    cases hsession
    exact .nil
  obtain ⟨session, hsession, hbundle⟩ := Option.bind_eq_some_iff.mp hb
  have hprints : session.Prints := prints_compileAll hfresh requests session hsession
  obtain ⟨-, hbundle⟩ := Option.ite_none_right_eq_some.mp hbundle
  cases hbundle
  exact ⟨hprints, Text.lengthToZero_eq hprints⟩

end Sessions

/-! ### Control bytes in a candidate -/

/-- A candidate whose style is two control bytes, the first of them zero, under a key with one. -/
def controlBytes : Json.Value Rat :=
  .object [("generation_style", .string [0x00, 0x1F]), ([0x07], .null)]

/-- The same as a request, with the bytes escaped. -/
def controlBytesRequest : Text :=
  "\x7b\"candidate\":\x7b\"generation_style\":\"\\u0000\\u001f\",\"\\u0007\":null\x7d," ++
    "\"profile\":\x7b\x7d,\"length_q\":4\x7d"

theorem controlBytes_bundle_printable :
    (∃ p, Part.compile Instrument.plain { length := (4 : Rat) } controlBytes = .ok p ∧
      (p.bundle.render 0).Printable) ∧
    ∃ b, (((({} : Sessions Rat).create "part").compileAll
        [("part", some controlBytesRequest)]).bundle? "part") = some b ∧
      b.Printable ∧ Text.lengthToZero b = b.length := by
  obtain ⟨hpart, hbundle⟩ := Sessions.bundle_printable Instrument.plain { length := (4 : Rat) }
    controlBytes {} "part" [("part", some controlBytesRequest)]
  obtain ⟨b, hb⟩ := Option.isSome_iff_exists.mp (by decide +kernel :
    (((({} : Sessions Rat).create "part").compileAll
      [("part", some controlBytesRequest)]).bundle? "part").isSome = true)
  exact ⟨⟨_, rfl, hpart _ rfl⟩, b, hb, hbundle b hb⟩

end MusicPart
