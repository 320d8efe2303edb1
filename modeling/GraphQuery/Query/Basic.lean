import GraphQuery.Value.Basic

/-!
Queries: what is selected from one object, or from each object of a set. A link selects a further
query below it, and a fragment selects only from objects of one type.
-/

namespace GraphQuery

structure Directive where
  name : String
  arguments : Entries Value

/-- What fields and links have in common. -/
structure Head where
  name : String
  alias? : Option String
  options? : Option (Entries Value)
  directives : List Directive

mutual

inductive Query where
  | mk (selections : List Selection) (fragments : List Fragment) (ordered : Bool)

inductive Selection where
  | field (head : Head)
  | link (head : Head) (query : Query)

/-- A fragment without a type name applies to every object. -/
inductive Fragment where
  | mk (typeName? : Option String) (query : Query)

end

namespace Head

def named (name : String) : Head := ⟨name, none, none, []⟩

/-- The key of a selection in the result. -/
def resultKey (head : Head) : String :=
  head.alias?.getD head.name

end Head

namespace Selection

def head : Selection → Head
  | field head => head
  | link head _ => head

def name (selection : Selection) : String :=
  selection.head.name

def resultKey (selection : Selection) : String :=
  selection.head.resultKey

def options? (selection : Selection) : Option (Entries Value) :=
  selection.head.options?

def isLink : Selection → Bool
  | field _ => false
  | link _ _ => true

end Selection

namespace Fragment

def typeName? : Fragment → Option String
  | mk typeName? _ => typeName?

def query : Fragment → Query
  | mk _ query => query

end Fragment

namespace Query

def selections : Query → List Selection
  | mk selections _ _ => selections

def fragments : Query → List Fragment
  | mk _ fragments _ => fragments

def ordered : Query → Bool
  | mk _ _ ordered => ordered

def empty : Query := mk [] [] false

def ofSelections (selections : List Selection) : Query :=
  mk selections [] false

def isEmpty (query : Query) : Bool :=
  query.selections.isEmpty && query.fragments.isEmpty

def find? (query : Query) (resultKey : String) : Option Selection :=
  query.selections.find? fun selection => selection.resultKey == resultKey

def fragmentOn? (query : Query) (typeName : String) : Option Fragment :=
  query.fragments.find? fun fragment => fragment.typeName? == some typeName

mutual

/-- The number of queries on the longest way down, the query itself included. -/
def height : Query → Nat
  | mk selections fragments _ =>
      max (heightOfSelections selections) (heightOfFragments fragments) + 1

def heightOfSelections : List Selection → Nat
  | [] => 0
  | .field _ :: rest => heightOfSelections rest
  | .link _ query :: rest => max (height query) (heightOfSelections rest)

def heightOfFragments : List Fragment → Nat
  | [] => 0
  | .mk _ query :: rest => max (height query) (heightOfFragments rest)

end

def heightOfAll (queries : List Query) : Nat :=
  queries.foldr (fun query height => max query.height height) 0

end Query

end GraphQuery
