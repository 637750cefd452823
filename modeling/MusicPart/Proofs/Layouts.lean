import Mathlib
import MusicPart.Json.Writer

/-!
# Layouts

The events of a value, laid out one by one, give a text that the value alone determines: `print`
writes it by recursion on the value, at a given number of levels of nesting.
-/

namespace MusicPart.Json

open Text

/-! ### Runs of events -/

namespace Layout

variable (indent : Int)

theorem foldl_step (l : Layout) (texts : List Text) (es : List Event) :
    es.foldl (fun (s : Layout × List Text) e => let (l, t) := step indent s.1 e; (l, t :: s.2))
      (l, texts) = ((run indent l es).1, (run indent l es).2.reverse ++ texts) := by
  induction es generalizing l texts with
  | nil => rfl
  | cons e es ih =>
      rw [run, List.foldl_cons, List.foldl_cons]
      simp only [ih, List.reverse_reverse, List.reverse_append, List.append_assoc]
      simp

theorem run_cons (l : Layout) (e : Event) (es : List Event) : run indent l (e :: es) =
    ((run indent (step indent l e).1 es).1,
      (step indent l e).2 :: (run indent (step indent l e).1 es).2) := by
  conv_lhs => rw [run, List.foldl_cons]
  simp only [foldl_step, List.reverse_append, List.reverse_reverse]
  simp

theorem run_append (l : Layout) (es fs : List Event) : run indent l (es ++ fs) =
    ((run indent (run indent l es).1 fs).1,
      (run indent l es).2 ++ (run indent (run indent l es).1 fs).2) := by
  induction es generalizing l with
  | nil => rfl
  | cons e es ih => rw [List.cons_append, run_cons, run_cons, ih]; rfl

/-- The layout after some events. -/
def after (l : Layout) (es : List Event) : Layout := (run indent l es).1

/-- The text of some events. -/
def text (l : Layout) (es : List Event) : Text := (run indent l es).2.flatten

theorem after_cons (l : Layout) (e : Event) (es : List Event) :
    after indent l (e :: es) = after indent (step indent l e).1 es := by
  rw [after, run_cons, after]

theorem after_append (l : Layout) (es fs : List Event) :
    after indent l (es ++ fs) = after indent (after indent l es) fs := by
  rw [after, run_append, after, after]

theorem text_cons (l : Layout) (e : Event) (es : List Event) :
    text indent l (e :: es) = (step indent l e).2 ++ text indent (step indent l e).1 es := by
  rw [text, run_cons, List.flatten_cons, text]

theorem text_append (l : Layout) (es fs : List Event) :
    text indent l (es ++ fs) = text indent l es ++ text indent (after indent l es) fs := by
  rw [text, run_append, List.flatten_append, text, text, after]

end Layout

/-! ### Printing -/

/-- The line break in front of what stands at a level of nesting. -/
def lineBreak (indent : Int) (level : Nat) : Text :=
  if 0 < indent then 0x0A :: List.replicate (level * indent.toNat) 0x20 else []

def comma (wanted : Bool) : Text := if wanted then [byte ','] else []

/-- What closes a container, on a line of its own unless the container is empty. -/
def closing (indent : Int) (level : Nat) (nonempty : Bool) (bracket : UInt8) : Text :=
  (if nonempty then lineBreak indent level else []) ++ [bracket]

def colon (indent : Int) : Text := ofString (if 0 < indent then ": " else ":")

namespace Value

variable {α : Type} [Quantity α]

mutual

/-- A value inside so many containers. -/
def print (indent : Int) (level : Nat) : Value α → Text
  | .null => "null"
  | .bool b => if b then "true" else "false"
  | .number x => SixPlaces.render x
  | .string s => Literal.render s
  | .array es => byte '[' :: printElements indent level false es
  | .object ms => 0x7B :: printMembers indent level false ms

/-- The elements that are left and the closing bracket, after others if there are any. -/
def printElements (indent : Int) (level : Nat) (nonempty : Bool) : List (Value α) → Text
  | [] => closing indent level nonempty (byte ']')
  | v :: vs => comma nonempty ++ lineBreak indent (level + 1) ++ print indent (level + 1) v ++
      printElements indent level true vs

def printMembers (indent : Int) (level : Nat) (nonempty : Bool) : List (Text × Value α) → Text
  | [] => closing indent level nonempty 0x7D
  | (key, v) :: ms => comma nonempty ++ lineBreak indent (level + 1) ++ Literal.render key ++
      colon indent ++ print indent (level + 1) v ++ printMembers indent level true ms

end

/-! ### Printing is laying out the events -/

open Layout

mutual

theorem run_events (indent : Int) : ∀ (v : Value α) (l : Layout),
    after indent l v.events = ⟨false, fill l.filled⟩ ∧
      text indent l v.events = separator indent l ++ v.print indent l.filled.length
  | .null, l => ⟨rfl, List.append_nil _⟩
  | .bool b, l => ⟨rfl, List.append_nil _⟩
  | .number x, l => ⟨rfl, List.append_nil _⟩
  | .string s, l => ⟨rfl, List.append_nil _⟩
  | .array es, l => by
      obtain ⟨hafter, htext⟩ := run_elementEvents indent es l.filled false
      rw [events, after_cons, text_cons]
      refine ⟨hafter, ?_⟩
      refine (congrArg (_ ++ ·) htext).trans ?_
      rw [print]
      change (separator indent l ++ [byte '[']) ++ _ = _
      rw [List.append_assoc, List.singleton_append]
  | .object ms, l => by
      obtain ⟨hafter, htext⟩ := run_memberEvents indent ms l.filled false
      rw [events, after_cons, text_cons]
      refine ⟨hafter, ?_⟩
      refine (congrArg (_ ++ ·) htext).trans ?_
      rw [print]
      change (separator indent l ++ [0x7B]) ++ _ = _
      rw [List.append_assoc, List.singleton_append]

theorem run_elementEvents (indent : Int) : ∀ (es : List (Value α)) (outer : List Bool)
    (nonempty : Bool),
    after indent ⟨false, nonempty :: outer⟩ (elementEvents es ++ [.endArray]) =
        ⟨false, fill outer⟩ ∧
      text indent ⟨false, nonempty :: outer⟩ (elementEvents es ++ [.endArray]) =
        printElements indent outer.length nonempty es
  | [], outer, nonempty => ⟨rfl, List.append_nil _⟩
  | v :: vs, outer, nonempty => by
      obtain ⟨hafter, htext⟩ := run_events indent v ⟨false, nonempty :: outer⟩
      obtain ⟨hafters, htexts⟩ := run_elementEvents indent vs outer true
      rw [elementEvents, List.append_assoc, after_append, text_append, hafter, htext]
      refine ⟨hafters, ?_⟩
      refine (congrArg (_ ++ ·) htexts).trans ?_
      rw [printElements]
      rfl

theorem run_memberEvents (indent : Int) : ∀ (ms : List (Text × Value α)) (outer : List Bool)
    (nonempty : Bool),
    after indent ⟨false, nonempty :: outer⟩ (memberEvents ms ++ [.endObject]) =
        ⟨false, fill outer⟩ ∧
      text indent ⟨false, nonempty :: outer⟩ (memberEvents ms ++ [.endObject]) =
        printMembers indent outer.length nonempty ms
  | [], outer, nonempty => ⟨rfl, List.append_nil _⟩
  | (key, v) :: ms, outer, nonempty => by
      have hkey : step indent ⟨false, nonempty :: outer⟩ (.key key) = (⟨true, nonempty :: outer⟩,
          comma nonempty ++ lineBreak indent (outer.length + 1) ++ Literal.render key ++
            colon indent) := rfl
      have hvalue : separator indent ⟨true, nonempty :: outer⟩ = [] := rfl
      obtain ⟨hafter, htext⟩ := run_events indent v ⟨true, nonempty :: outer⟩
      obtain ⟨hafters, htexts⟩ := run_memberEvents indent ms outer true
      rw [memberEvents, List.cons_append, List.append_assoc, after_cons, text_cons, hkey,
        after_append, text_append, hafter, htext, hvalue, List.nil_append]
      refine ⟨hafters, ?_⟩
      rw [printMembers, ← htexts]
      exact (List.append_assoc _ _ _).symm

end

theorem render_eq_print (indent : Int) (v : Value α) : v.render indent = v.print indent 0 :=
  (run_events indent v {}).2

end Value

end MusicPart.Json
