import Mathlib
import MusicPart.Proofs.Requests

/-!
# Sessions

What a session tells after a request depends on the request alone. The session is not as it would be
without the requests before it, since it keeps a part that no later request takes away; that nothing
shows of it is what one request does in a session of any kind, and then in any run of requests.
-/

namespace MusicPart

/-! ### Tables -/

namespace Table

variable {β : Type}

theorem find?_cons (key : Text) (m : Text × β) (t : Table β) :
    find? key (m :: t) = if m.1 == key then some m.2 else find? key t := by
  rw [find?, List.find?_cons]
  split
  · rename_i heq
    rw [heq]
    rfl
  · rename_i heq
    rw [heq]
    rfl

theorem find?_insert_self (key : Text) (x : β) (t : Table β) :
    find? key (insert key x t) = some x := by
  have hnew (t : Table β) : find? key ((key, x) :: t) = some x := by
    rw [find?_cons, beq_self_eq_true, if_pos rfl]
  induction t with
  | nil => exact hnew []
  | cons m t ih =>
      rw [insert]
      split
      · exact hnew t
      · rename_i hne
        split
        · exact hnew (m :: t)
        · rw [find?_cons, if_neg hne, ih]

theorem find?_insert_of_ne {key other : Text} (h : other ≠ key) (x : β) (t : Table β) :
    find? key (insert other x t) = find? key t := by
  have hother : ¬(other == key) = true := fun heq => h (beq_iff_eq.mp heq)
  have hnew (t : Table β) : find? key ((other, x) :: t) = find? key t := by
    rw [find?_cons, if_neg hother]
  induction t with
  | nil => exact hnew []
  | cons m t ih =>
      rw [insert]
      split
      · rename_i heq
        rw [hnew, find?_cons, beq_iff_eq.mp heq, if_neg hother]
      · split
        · exact hnew (m :: t)
        · rw [find?_cons, find?_cons, ih]

end Table

variable {α : Type} [Quantity α]

/-! ### What is told -/

/-- All that a caller learns of a request. -/
structure Answer where
  status : Status
  bundle : Option Text
  counts : Counts
  message : Text
  deriving Repr, DecidableEq

namespace Answer

def ofPart (p : Part α) : Answer := ⟨.ok, some (p.bundle.render 0), Session.countsOf p, []⟩

def ofRefusal (e : Refusal) : Answer := ⟨e.status, none, {}, Text.beforeNul e.message⟩

/-- The answer to a request that no other request came before. -/
def ofRequest (α : Type) [Quantity α] (t : Text) : Answer :=
  match (Request.answer t : Except Refusal (Part α)) with
  | .ok p => ofPart p
  | .error e => ofRefusal e

/-- A bundle comes with success, a message with failure, and failure has nothing to count. -/
structure Consistent (a : Answer) : Prop where
  bundle : a.bundle.isSome = true ↔ a.status = .ok
  message : a.message = [] ↔ a.status = .ok
  counts : a.status ≠ .ok → a.counts = {}

theorem consistent_ofPart (p : Part α) : (ofPart p).Consistent where
  bundle := ⟨fun _ => rfl, fun _ => rfl⟩
  message := ⟨fun _ => rfl, fun _ => rfl⟩
  counts h := absurd rfl h

theorem consistent_ofRefusal {e : Refusal} (h : e.ByReader) : (ofRefusal e).Consistent where
  bundle := ⟨nofun, fun hstatus => absurd hstatus e.status_ne_ok⟩
  message := ⟨fun hmessage => absurd hmessage h.message_ne_nil,
    fun hstatus => absurd hstatus e.status_ne_ok⟩
  counts _ := rfl

end Answer

/-! ### One request -/

theorem Request.answer_of_read {t : Text} {r : Request α} (h : read t = .ok r) :
    answer t = r.compile := by
  rw [answer, h]
  rfl

theorem Request.answer_of_refused {t : Text} {e : Refusal}
    (h : (read t : Except Refusal (Request α)) = .error e) :
    (answer t : Except Refusal (Part α)) = .error e := by
  rw [answer, h]
  rfl

theorem Answer.consistent_ofRequest (t : Text) : (ofRequest α t).Consistent := by
  rw [ofRequest]
  cases hread : (Request.read t : Except Refusal (Request α)) with
  | error e =>
      rw [Request.answer_of_refused hread]
      exact consistent_ofRefusal (Request.reads_read t e hread)
  | ok r =>
      obtain ⟨p, hp⟩ := Request.compile_of_read hread
      rw [Request.answer_of_read hread, hp]
      exact consistent_ofPart p

namespace Session

/-- What a session tells besides the status of its last request. -/
def tell (s : Session α) (status : Status) : Answer := ⟨status, s.bundle?, s.counts, s.shown⟩

omit [Quantity α] in
/-- A missing instrument is always told, because nothing is left of an earlier message. -/
theorem told_clear (s : Session α) (e : Refusal) : s.clear.told e = e.message := by
  cases e <;> rfl

/-- Whatever a session holds, a request is answered as if it held nothing. -/
theorem tell_compile (s : Session α) (t : Text) :
    (s.compile t).1.tell (s.compile t).2 = Answer.ofRequest α t := by
  rw [Answer.ofRequest]
  cases hread : (Request.read t : Except Refusal (Request α)) with
  | error e =>
      rw [Request.answer_of_refused hread, compile, hread]
      change Answer.mk e.status none {} (Text.beforeNul (s.clear.told e)) = _
      rw [told_clear]
      rfl
  | ok r =>
      obtain ⟨p, hp, hcompile⟩ := compile_of_read hread s
      rw [Request.answer_of_read hread, hp, hcompile]
      rfl

end Session

/-! ### Runs of requests -/

namespace Sessions

/-- The sessions after requests to any of them, each a text or nothing at all. -/
def compileAll (s : Sessions α) (requests : List (Text × Option Text)) : Sessions α :=
  requests.foldl (fun s r => (s.compile r.1 r.2).1) s

/-- Compiles a request and asks for everything there is to ask. -/
def ask (s : Sessions α) (name t : Text) : Answer :=
  let (s, status) := s.compile name (some t)
  ⟨status, s.bundle? name, s.counts name, s.message name⟩

theorem compile_of_find? {s : Sessions α} {name : Text} {session : Session α}
    (h : s.find? name = some session) (t : Text) : s.compile name (some t) =
      (⟨s.table.insert name (session.compile t).1⟩, (session.compile t).2) := by
  simp only [compile, h]

theorem compile_of_find?_eq_none {s : Sessions α} {name : Text} (h : s.find? name = none)
    (request : Option Text) : s.compile name request = (s, .invalidParameter) := by
  simp only [compile, h]

theorem compile_none (s : Sessions α) (name : Text) :
    s.compile name none = (s, .invalidParameter) := by
  rw [compile]
  exact nofun

theorem isSome_find?_compile {s : Sessions α} {name : Text} (h : (s.find? name).isSome = true)
    (other : Text) (request : Option Text) :
    ((s.compile other request).1.find? name).isSome = true := by
  cases hother : s.find? other with
  | none =>
      rw [compile_of_find?_eq_none hother]
      exact h
  | some session =>
      cases request with
      | none =>
          rw [compile_none]
          exact h
      | some t =>
          rw [compile_of_find? hother, find?]
          by_cases hname : other = name
          · rw [hname, Table.find?_insert_self]
            rfl
          · rw [Table.find?_insert_of_ne hname]
            exact h

theorem isSome_find?_compileAll {s : Sessions α} {name : Text} (h : (s.find? name).isSome = true)
    (requests : List (Text × Option Text)) :
    ((s.compileAll requests).find? name).isSome = true := by
  induction requests generalizing s with
  | nil => exact h
  | cons r requests ih => exact ih (isSome_find?_compile h r.1 r.2)

theorem ask_of_isSome {s : Sessions α} {name : Text} (h : (s.find? name).isSome = true)
    (t : Text) : s.ask name t = Answer.ofRequest α t := by
  obtain ⟨session, hsession⟩ := Option.isSome_iff_exists.mp h
  rw [← session.tell_compile t, ask, compile_of_find? hsession]
  simp only [bundle?, counts, message, find?, Table.find?_insert_self]
  rfl

omit [Quantity α] in
theorem isSome_find?_create (s : Sessions α) (name : Text) :
    ((s.create name).find? name).isSome = true := by
  rw [find?, create, Table.find?_insert_self]
  rfl

/-- After any requests, to this session or to others, one more request is answered as it is in a
session that has just been made. -/
theorem ask_compileAll (s : Sessions α) (name : Text) (requests : List (Text × Option Text))
    (t : Text) :
    ((s.create name).compileAll requests).ask name t =
        (({} : Sessions α).create name).ask name t ∧
      (((s.create name).compileAll requests).ask name t).Consistent := by
  have hlast := isSome_find?_compileAll (isSome_find?_create s name) requests
  rw [ask_of_isSome hlast, ask_of_isSome (isSome_find?_create {} name)]
  exact ⟨rfl, Answer.consistent_ofRequest t⟩

end Sessions

end MusicPart
