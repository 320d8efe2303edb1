import GraphQuery.Graph.Basic

/-!
What is known of a place in a graph: the fields visible there, where its links lead and which type
names its objects match.
-/

namespace GraphQuery.Graph

def placeNamed (graph : Graph) (name : String) : Place :=
  if (graph.node? name).isSome then .object name
  else if (graph.interface? name).isSome then .interface name
  else if (graph.union? name).isSome then .union name
  else .unknown

/-- A field visible at a place; a node's own field goes before those of its interfaces. -/
def field? (graph : Graph) (place : Place) (name : String) : Option FieldDef :=
  match place with
  | .root => graph.root.find? name
  | .object node => do
      let node ← graph.node? node
      (node.fields.find? name).or
        ((node.implements.filterMap graph.interface?).findSome? fun fields => fields.find? name)
  | .interface interface => (graph.interface? interface).bind fun fields => fields.find? name
  | .union _ => none
  | .unknown => none

/-- Where the link of a given name leads from a place. -/
def linkTarget (graph : Graph) (place : Place) (name : String) : Place :=
  match (graph.field? place name).bind fun field => field.ty.target? with
  | some (.type, target) => graph.placeNamed target
  | some (.interface, target) => .interface target
  | some (.union, target) => .union target
  | none => .unknown

/--
Whether every object of a node matches a type name: the node itself, an interface it implements or a
union it belongs to.
-/
def isSubtype (graph : Graph) (node typeName : String) : Bool :=
  node == typeName ||
    (graph.node? node).any (fun node => node.implements.contains typeName) ||
    (graph.union? typeName).any (fun members => members.contains node)

end GraphQuery.Graph
