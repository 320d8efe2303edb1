import GraphQuery.Ty.Registry
import GraphQuery.Value.Basic

/-!
Graphs: nodes with fields and links, the interfaces they implement, unions of nodes, and the fields
of the graph root. A link is a field whose type points to a name.
-/

namespace GraphQuery

/-- A declared option of a field; it is required unless it has a default. -/
structure OptionDef where
  name : String
  ty : Ty
  default? : Option Value

structure FieldDef where
  ty : Ty
  options : List OptionDef

def FieldDef.isLink (field : FieldDef) : Bool :=
  field.ty.target?.isSome

structure NodeDef where
  fields : Entries FieldDef
  implements : List String

structure Graph where
  root : Entries FieldDef
  nodes : Entries NodeDef
  interfaces : Entries (Entries FieldDef)
  unions : Entries (List String)

/-- What the object that a query selects from is known to be. -/
inductive Place where
  | root
  | object (name : String)
  | interface (name : String)
  | union (name : String)
  | unknown
  deriving DecidableEq

namespace Graph

def rootName : String := "Root"

def node? (graph : Graph) (name : String) : Option NodeDef :=
  graph.nodes.find? name

def interface? (graph : Graph) (name : String) : Option (Entries FieldDef) :=
  graph.interfaces.find? name

def union? (graph : Graph) (name : String) : Option (List String) :=
  graph.unions.find? name

def recordOf (fields : Entries FieldDef) : Ty :=
  .ofFields (fields.mapValues FieldDef.ty)

/-- The fields of the interfaces that a node implements, in order, then its own. -/
def allFields (graph : Graph) (node : NodeDef) : Entries FieldDef :=
  (node.implements.filterMap graph.interface?).flatten ++ node.fields

/-- The records of all interfaces and nodes under their names. -/
def types (graph : Graph) : Registry :=
  let interfaces := graph.interfaces.foldl
    (fun registry (name, fields) => registry.insert name (recordOf fields)) Registry.empty
  graph.nodes.foldl
    (fun registry (name, node) => registry.insert name (recordOf (graph.allFields node))) interfaces

end Graph

end GraphQuery
