import GraphQuery.Query.Equality

/-!
What a merged query collects while its parts are read: one slot per result key and one group per
type name of a fragment, both in the order in which they are first seen. What is under links and in
groups is merged only afterwards.
-/

namespace GraphQuery

/-- Everything selected so far under one result key. -/
inductive Slot where
  | field (head : Head)
  | link (head : Head) (queries : List Query)

/-- Appends the directives that are not there yet. -/
def unionDirectives (directives others : List Directive) : List Directive :=
  others.foldl (fun found directive =>
    if found.any (· == directive) then found else found ++ [directive]) directives

namespace Head

def addDirectives (head : Head) (directives : List Directive) : Head :=
  { head with directives := unionDirectives head.directives directives }

/-- Whether two selections under one key mean the same field with the same options. -/
def agrees (head other : Head) : Bool :=
  head.name == other.name && sameOptions head.options? other.options?

end Head

inductive MergeError where
  | distinctSelections (key : String)
  | fieldLinkCollision (key : String)
  deriving DecidableEq

def MergeError.message : MergeError → String
  | .distinctSelections key => "Distinct selections with same result name \"" ++ key ++ "\""
  | .fieldLinkCollision key => "Field and link selected with same result name \"" ++ key ++ "\""

namespace Slot

def ofSelection : Selection → Slot
  | .field head => field head
  | .link head query => link head [query]

/-- Joins a selection to a slot of its key unless their meanings differ. -/
def join : Slot → Selection → Except MergeError Slot
  | field head, .field other =>
      if head.agrees other then .ok (field (head.addDirectives other.directives))
      else .error (.distinctSelections other.resultKey)
  | link head queries, .link other query =>
      if head.agrees other then
        .ok (link (head.addDirectives other.directives) (queries ++ [query]))
      else .error (.distinctSelections other.resultKey)
  | _, selection => .error (.fieldLinkCollision selection.resultKey)

/-- Joins a requirement to a slot of its key. Fetching a link fetches the field too. -/
def absorb : Slot → Selection → Slot
  | field head, .field other => field (head.addDirectives other.directives)
  | link head queries, .link other query =>
      link (head.addDirectives other.directives) (queries ++ [query])
  | field _, .link other query => link other [query]
  | link head queries, .field _ => link head queries

end Slot

structure Gathered where
  slots : Entries Slot
  groups : Entries (List Query)

namespace Gathered

def empty : Gathered := ⟨[], []⟩

variable {ε : Type}

def add (combine : Slot → Selection → Except ε Slot) (gathered : Gathered)
    (selection : Selection) : Except ε Gathered :=
  match gathered.slots.find? selection.resultKey with
  | none =>
      let slots := gathered.slots.insert selection.resultKey (.ofSelection selection)
      .ok { gathered with slots := slots }
  | some slot => do
      let joined ← combine slot selection
      let slots := gathered.slots.insert selection.resultKey joined
      .ok { gathered with slots := slots }

def addAll (combine : Slot → Selection → Except ε Slot) (gathered : Gathered)
    (selections : List Selection) : Except ε Gathered :=
  selections.foldlM (add combine) gathered

def push (gathered : Gathered) (typeName : String) (query : Query) : Gathered :=
  { gathered with groups := gathered.groups.alter typeName [query] (· ++ [query]) }

end Gathered

end GraphQuery
