import GraphQuery.Query.Basic

/-!
Equality of queries, which ignores the order of selections, of fragments and of directives: two
lists are alike when every item of the first occurs equally often in both.
-/

namespace GraphQuery

def sameItems {α : Type} (same : α → α → Bool) (items others : List α) : Bool :=
  items.length == others.length && items.all fun item =>
    items.countP (fun other => same other item) == others.countP (fun other => same other item)

instance : BEq Directive where
  beq directive other :=
    directive.name == other.name && Value.equalEntries directive.arguments other.arguments

def sameOptions : Option (Entries Value) → Option (Entries Value) → Bool
  | none, none => true
  | some options, some others => Value.equalEntries options others
  | _, _ => false

instance : BEq Head where
  beq head other :=
    head.name == other.name && head.alias? == other.alias? &&
      sameOptions head.options? other.options? &&
      sameItems (· == ·) head.directives other.directives

namespace Selection

def sameBy (same : Query → Query → Bool) : Selection → Selection → Bool
  | field head, field other => head == other
  | link head query, link other otherQuery => head == other && same query otherQuery
  | _, _ => false

end Selection

namespace Fragment

def sameBy (same : Query → Query → Bool) (fragment other : Fragment) : Bool :=
  fragment.typeName? == other.typeName? && same fragment.query other.query

end Fragment

namespace Query

/-- Equality of queries of at most a given height. -/
def sameWithin : Nat → Query → Query → Bool
  | 0, _, _ => false
  | height + 1, query, other =>
      query.ordered == other.ordered &&
        sameItems (Selection.sameBy (sameWithin height)) query.selections other.selections &&
        sameItems (Fragment.sameBy (sameWithin height)) query.fragments other.fragments

protected def beq (query other : Query) : Bool :=
  sameWithin (max query.height other.height) query other

instance : BEq Query := ⟨Query.beq⟩

end Query

end GraphQuery
