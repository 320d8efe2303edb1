import GraphQuery.Query.Basic
import GraphQuery.Ty.Basic

/-!
What a parameter type asks for of graph data: a record asks for each of its fields, looked for
through optionals and sequences, and any other type asks for nothing.
-/

namespace GraphQuery

/-- The selection of one label: a link if something is asked for below it. -/
def Selection.ofTemplate (name : String) : Option Query → Selection
  | some query => .link (.named name) query
  | none => .field (.named name)

namespace Ty

mutual

def template? : Ty → Option Query
  | record fields => some (.ofSelections (templateSelections fields))
  | sequence item => template? item
  | optional item => template? item
  | _ => none

def templateSelections : List (String × Ty) → List Selection
  | [] => []
  | (name, ty) :: rest => .ofTemplate name (template? ty) :: templateSelections rest

end

end Ty

end GraphQuery
