import GraphQuery.Query.Merge
import GraphQuery.Requirement.Template
import GraphQuery.Ty.Registry
import GraphQuery.Typed.Basic

/-!
The graph data that a checked expression reads, as a query below the names bound before checking.
-/

namespace GraphQuery

namespace Registry

/-- Whether values of a type are objects with fields of their own, an optional around it aside. -/
def isObject (types : Registry) (ty : Ty) : Bool :=
  match types.resolveSome ty with
  | .record _ => true
  | .named _ _ => true
  | _ => false

/-- Whether a label of a type is selected as a link. -/
def isLink (types : Registry) (ty : Ty) : Bool :=
  match types.resolveSome ty with
  | .sequence item => types.isObject item
  | resolved => types.isObject resolved

end Registry

namespace Requirement

/-- What is required below a reference becomes what is required below the one it refers back to. -/
def wrap (types : Registry) (below? : Option Query) (reference : Reference) : Option Query :=
  match reference.label?, types.isLink reference.ty with
  | some label, true =>
      some (.ofSelections [.link (.named label) (below?.getD .empty)])
  | some label, false => some (.ofSelections [.field (.named label)])
  | none, true => below?
  | none, false => none

/-- The requirement of a reference and of what a template asks for below it. -/
def ofReference (types : Registry) (references : References) (reference : Nat)
    (below? : Option Query) : List Query :=
  ((references.chain reference).foldl (wrap types) below?).toList

variable (types : Registry) (references : References)

/-- The requirements of a part's own reference. -/
def ofTyped (typed : Typed) : List Query :=
  match typed.reference? with
  | some reference => ofReference types references reference none
  | none => []

mutual

def collect : Typed → List Query
  | .symbol reference name => ofTyped types references (.symbol reference name)
  | .constant _ => []
  | .get reference object name =>
      ofTyped types references (.get reference object name) ++ collect object
  | .each binder collection body =>
      ofReference types references binder.reference none ++ collect collection ++ collect body
  | .ifElse test yes no => collect test ++ collect yes ++ collect no
  | .ifSome binder bound yes no =>
      ofReference types references binder.reference none ++ collect bound ++ collect yes ++
        collect no
  | .call _ params args => collectArgs args params
  | .list items => collectList items
  | .map entries => collectEntries entries

/-- An argument that a template reads is required as far as the template goes. -/
def collectArgs : List Typed → List Ty → List Query
  | arg :: args, param :: params =>
      (match arg.reference?, param.template? with
        | some reference, some query => ofReference types references reference (some query)
        | _, _ => collect arg) ++ collectArgs args params
  | _, _ => []

def collectList : List Typed → List Query
  | [] => []
  | item :: rest => collect item ++ collectList rest

def collectEntries : List (String × Typed) → List Query
  | [] => []
  | (_, value) :: rest => collect value ++ collectEntries rest

end

end Requirement

/-- The merged requirements of a checked expression. -/
def Checked.requirements (checked : Checked) (types : Registry) : Query :=
  .mergeRequirements (Requirement.collect types checked.references checked.root)

end GraphQuery
