import GraphQuery.Query.Slot

/-!
Merging several queries into one. A policy decides what selections under one key come to and what
becomes of a fragment at a given place; the plain policies know one place only and keep every
fragment on a type name.
-/

namespace GraphQuery

/-- What becomes of a fragment on a type name. -/
inductive Treatment where
  | expand
  | hoist (shared : List String)
  | keep

/-- How queries are merged at places of type `κ`, with errors of type `ε`. -/
structure MergePolicy (κ ε : Type) where
  combine : Slot → Selection → Except ε Slot
  treatment : κ → String → Treatment
  below : κ → String → κ
  inside : κ → String → κ

namespace MergePolicy

variable {κ ε : Type}

mutual

def gather (policy : MergePolicy κ ε) (place : κ) : Query → Gathered → Except ε Gathered
  | .mk selections fragments _, gathered => do
      let gathered ← gathered.addAll policy.combine selections
      gatherFragments policy place fragments gathered

def gatherFragments (policy : MergePolicy κ ε) (place : κ) :
    List Fragment → Gathered → Except ε Gathered
  | [], gathered => .ok gathered
  | .mk none query :: rest, gathered => do
      let gathered ← gather policy place query gathered
      gatherFragments policy place rest gathered
  | .mk (some typeName) query :: rest, gathered => do
      let gathered ← match policy.treatment place typeName with
        | .expand => gather policy place query gathered
        | .keep => .ok (gathered.push typeName query)
        | .hoist shared => do
            let (hoisted, specific) :=
              query.selections.partition fun selection => shared.contains selection.name
            let gathered ← gathered.addAll policy.combine hoisted
            .ok (gathered.push typeName (.mk specific query.fragments query.ordered))
      gatherFragments policy place rest gathered

end

def gatherAll (policy : MergePolicy κ ε) (place : κ) (queries : List Query) :
    Except ε Gathered :=
  queries.foldlM (fun gathered query => policy.gather place query gathered) .empty

/-- The selection that a slot comes to, its links merged by the given function. -/
def finishSlot (policy : MergePolicy κ ε) (place : κ)
    (merge : κ → List Query → Except ε Query) : Slot → Except ε Selection
  | .field head => .ok (.field head)
  | .link head queries => do
      let query ← merge (policy.below place head.name) queries
      .ok (.link head query)

/-- The fragments that groups come to; one that is left empty is dropped. -/
def finishGroups (policy : MergePolicy κ ε) (place : κ)
    (merge : κ → List Query → Except ε Query) : Entries (List Query) → Except ε (List Fragment)
  | [] => .ok []
  | (typeName, queries) :: rest => do
      let query ← merge (policy.inside place typeName) queries
      let fragments ← finishGroups policy place merge rest
      .ok (if query.isEmpty then fragments else .mk (some typeName) query :: fragments)

/-- Merges queries of at most a given height. -/
def mergeWithin (policy : MergePolicy κ ε) : Nat → κ → List Query → Except ε Query
  | 0, _, _ => .ok .empty
  | height + 1, place, queries => do
      let gathered ← policy.gatherAll place queries
      let selections ← gathered.slots.values.mapM
        (policy.finishSlot place (policy.mergeWithin height))
      let fragments ← policy.finishGroups place (policy.mergeWithin height) gathered.groups
      .ok (.mk selections fragments (queries.any Query.ordered))

def merge (policy : MergePolicy κ ε) (place : κ) (queries : List Query) : Except ε Query :=
  policy.mergeWithin (Query.heightOfAll queries) place queries

/-- The policy that knows nothing of a graph. -/
def plain (combine : Slot → Selection → Except ε Slot) : MergePolicy Unit ε where
  combine := combine
  treatment := fun _ _ => .keep
  below := fun _ _ => ()
  inside := fun _ _ => ()

end MergePolicy

namespace Query

def merge (queries : List Query) : Except MergeError Query :=
  (MergePolicy.plain Slot.join).merge () queries

/-- Merges requirements, which never collide. -/
def mergeRequirements (queries : List Query) : Query :=
  let policy : MergePolicy Unit Empty := .plain fun slot selection => .ok (slot.absorb selection)
  match policy.merge () queries with
  | .ok query => query

end Query

end GraphQuery
