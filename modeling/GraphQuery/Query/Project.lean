import GraphQuery.Query.Basic

/-!
The part of stored data that a query selects. Fragments select nothing here.
-/

namespace GraphQuery

namespace Value

mutual

/-- Changes an object, or every object of a list, and nothing else. -/
def mapObjects (change : Entries Value → Value) : Value → Value
  | list items => list (mapObjectsOf change items)
  | object entries => change entries
  | value => value

def mapObjectsOf (change : Entries Value → Value) : List Value → List Value
  | [] => []
  | item :: rest => mapObjects change item :: mapObjectsOf change rest

end

end Value

namespace Query

mutual

def project : Query → Value → Value
  | mk selections _ _, value =>
      value.mapObjects fun entries => .ofPairs (projectPairs selections entries)

/-- The selected entries that an object has, under the keys of the selections. -/
def projectPairs : List Selection → Entries Value → List (String × Value)
  | [], _ => []
  | .field head :: rest, entries =>
      match entries.find? head.name with
      | some value => (head.resultKey, value) :: projectPairs rest entries
      | none => projectPairs rest entries
  | .link head query :: rest, entries =>
      match entries.find? head.name with
      | some value => (head.resultKey, project query value) :: projectPairs rest entries
      | none => projectPairs rest entries

end

end Query

end GraphQuery
