import GraphQuery.Graph.Lookup
import GraphQuery.Query.Merge

/-!
Merging queries with knowledge of the graph they are made against. A fragment that always applies is
expanded. Under an interface, fields that the interface declares are hoisted out of fragments on the
nodes implementing it.
-/

namespace GraphQuery

/-- What happens to a fragment on another interface under an interface. -/
inductive Overlapping where
  | keep
  | hoist
  deriving DecidableEq

structure MergeOptions where
  hoistFields : Bool
  overlapping : Overlapping

def MergeOptions.standard : MergeOptions := ⟨true, .keep⟩

namespace Graph

/-- What becomes of a fragment on a type name under an interface other than that name. -/
def treatmentUnderInterface (graph : Graph) (options : MergeOptions)
    (interface typeName : String) : Treatment :=
  match graph.interface? interface with
  | none => .keep
  | some shared =>
      if (graph.node? typeName).isSome then
        if graph.isSubtype typeName interface then .hoist shared.keys else .keep
      else match graph.interface? typeName with
        | none => .keep
        | some other =>
            match options.overlapping with
            | .hoist => .hoist (shared.keys.filter other.contains)
            | .keep => .keep

def treatment (graph : Graph) (options : MergeOptions) (place : Place)
    (typeName : String) : Treatment :=
  match place with
  | .root => if rootName = typeName then .expand else .keep
  | .object node => if graph.isSubtype node typeName then .expand else .keep
  | .union union => if union = typeName then .expand else .keep
  | .interface interface =>
      if interface = typeName then .expand
      else if options.hoistFields then graph.treatmentUnderInterface options interface typeName
      else .keep
  | .unknown => .keep

def mergePolicy (graph : Graph) (options : MergeOptions) : MergePolicy Place MergeError where
  combine := Slot.join
  treatment := graph.treatment options
  below := graph.linkTarget
  inside := fun _ typeName => graph.placeNamed typeName

/-- Merges queries made at one place. -/
def mergeAt (graph : Graph) (options : MergeOptions) (place : Place)
    (queries : List Query) : Except MergeError Query :=
  (graph.mergePolicy options).merge place queries

/-- Merges a query made against the graph root. -/
def merge (graph : Graph) (options : MergeOptions) (query : Query) : Except MergeError Query :=
  graph.mergeAt options .root [query]

end Graph

end GraphQuery
