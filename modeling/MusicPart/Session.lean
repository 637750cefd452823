import MusicPart.Part.Bundle
import MusicPart.Request
import MusicPart.Table

/-!
# Sessions

A session compiles requests and keeps what came of the last one, so that its bundle, its counts and
its message can be asked for afterwards. Sessions are kept under names. A name without a session can
be asked too: it compiles nothing and has nothing to tell.
-/

namespace MusicPart

/-- How much there is of a part. -/
structure Counts where
  notes : Nat := 0
  controls : Nat := 0
  keyswitches : Nat := 0
  programs : Nat := 0
  markers : Nat := 0
  dropped : Nat := 0
  corrections : Nat := 0
  deriving Repr, DecidableEq

/-- What a session keeps from one request to the next. -/
structure Session (α : Type) where
  /-- The last part that was compiled, also when requests after it were refused. -/
  part : Option (Part α) := none
  bundle : Text := []
  message : Text := []
  /-- Whether the part and the bundle are those of the last request. -/
  ready : Bool := false

def version : Text := "0.1.0"

namespace Session

variable {α : Type} [Quantity α]

/-! ### Compiling -/

/-- What is forgotten before a request is read; the part stays. -/
def clear (s : Session α) : Session α := { s with bundle := [], message := [], ready := false }

/-- The message of a refusal; a missing instrument is told only where nothing else was. -/
def told (s : Session α) : Refusal → Text
  | .noInstrument => if s.message.isEmpty then Refusal.noInstrument.message else s.message
  | r => r.message

def refuse (s : Session α) (r : Refusal) : Session α × Status :=
  ({ s with message := s.told r }, r.status)

/-- Compiles a request that was read; one without a part takes the part before it away. -/
def keep (s : Session α) (r : Request α) : Session α × Status :=
  match r.compile with
  | .ok p => ({ s with part := some p, bundle := p.bundle.render 0, ready := true }, .ok)
  | .error e => { s with part := none }.refuse e

def compile (s : Session α) (t : Text) : Session α × Status :=
  match Request.read t with
  | .ok r => s.clear.keep r
  | .error e => s.clear.refuse e

/-! ### Asking -/

def part? (s : Session α) : Option (Part α) := if s.ready then s.part else none

/-- The bundle on one line. -/
def bundle? (s : Session α) : Option Text := if s.ready then some s.bundle else none

def countsOf (p : Part α) : Counts :=
  ⟨p.notes.length, p.controls.length, p.keyswitches.length, p.programs.length, p.markers.length,
    p.report.intake.dropped, p.report.corrections⟩

def counts (s : Session α) : Counts := (s.part?.map countsOf).getD {}

/-- The message up to its first NUL. -/
def shown (s : Session α) : Text := Text.beforeNul s.message

end Session

/-- Sessions by name. -/
structure Sessions (α : Type) where
  table : Table (Session α) := []

namespace Sessions

variable {α : Type} [Quantity α]

def find? (s : Sessions α) (name : Text) : Option (Session α) := s.table.find? name

def create (s : Sessions α) (name : Text) : Sessions α := ⟨s.table.insert name {}⟩

def destroy (s : Sessions α) (name : Text) : Sessions α := ⟨s.table.filter (·.1 != name)⟩

/-- Without a session or a request nothing changes. -/
def compile (s : Sessions α) (name : Text) (request : Option Text) : Sessions α × Status :=
  match s.find? name, request with
  | some session, some t =>
      let (session, status) := session.compile t
      (⟨s.table.insert name session⟩, status)
  | _, _ => (s, .invalidParameter)

def bundle? (s : Sessions α) (name : Text) : Option Text := (s.find? name).bind Session.bundle?

def counts (s : Sessions α) (name : Text) : Counts := ((s.find? name).map Session.counts).getD {}

def message (s : Sessions α) (name : Text) : Text := ((s.find? name).map Session.shown).getD []

end Sessions

end MusicPart
