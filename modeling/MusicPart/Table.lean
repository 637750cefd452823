import MusicPart.Text

/-!
# Tables

A table keeps its keys in the order of their bytes, each once. Inserting replaces.
-/

namespace MusicPart

abbrev Table (β : Type) := List (Text × β)

namespace Table

variable {β : Type}

def insert (key : Text) (x : β) : Table β → Table β
  | [] => [(key, x)]
  | m :: ms =>
      if m.1 == key then (key, x) :: ms
      else if Text.before key m.1 then (key, x) :: m :: ms
      else m :: insert key x ms

def ofList (ms : List (Text × β)) : Table β := ms.foldl (fun t m => insert m.1 m.2 t) []

def find? (key : Text) (t : Table β) : Option β := (List.find? (·.1 == key) t).map (·.2)

end Table

end MusicPart
