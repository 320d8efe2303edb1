import GraphQuery.Op.Eval
import GraphQuery.Schema

/-!
Computing fields for many objects at once. What all requests require is merged first, so the engine
is asked at most once for the objects and at most once for the graph root.
-/

namespace GraphQuery

/-- Answers queries about objects of a node, one value per id and in order, and about the root. -/
structure Engine where
  fetchNode : String → List Value → Query → Except String (List Value)
  fetchRoot : Query → Except String Value

inductive EngineCall where
  | node (name : String) (ids : List Value) (query : Query)
  | root (query : Query)

inductive BatchError where
  | unknownField (node name : String)
  | mixedOwners (owner other : String)
  | missingOption (field option : String)
  | engine (message : String)
  | merge (error : MergeError)
  | eval (error : EvalError)

namespace BatchError

def message : BatchError → String
  | unknownField node name => "Unknown computed field \"" ++ fieldPath node name ++ "\""
  | mixedOwners owner other =>
      "Computed fields of \"" ++ owner ++ "\" and \"" ++ other ++ "\" resolved in one batch"
  | missingOption field option =>
      "Required option \"" ++ option ++ "\" for \"" ++ field ++ "\" was not provided"
  | engine message => "Engine failed: " ++ message
  | merge error => error.message
  | eval error => error.message

end BatchError

/-- A computed field with the options that it is selected with. -/
structure FieldRequest where
  field : ComputedField
  options? : Option (Entries Value)

namespace FieldRequest

def optionValue (request : FieldRequest) (option : OptionDef) : Except BatchError Value :=
  let given? := request.options?.bind fun options => options.find? option.name
  match given?.or option.default? with
  | some value => .ok value
  | none => .error (.missingOption (fieldPath request.field.node request.field.name) option.name)

/-- The values of all options in the order of their declaration. -/
def optionValues (request : FieldRequest) : Except BatchError (List Value) :=
  request.field.options.mapM request.optionValue

end FieldRequest

/-- A field to be computed and the values of its options. -/
structure Evaluation where
  field : ComputedField
  options : List Value

namespace Evaluation

def run (evaluation : Evaluation) (environment : Environment) (context this : Value) :
    Except BatchError Value :=
  (evaluation.field.program.call environment this context evaluation.options).mapError .eval

end Evaluation

/-- What is fetched for a batch, and what is computed from it for each object. -/
structure Plan where
  owner : String
  objectQuery : Query
  rootQuery : Query
  evaluations : List Evaluation

namespace Plan

/-- What is required of the objects themselves. -/
def thisBranch (requirements : Query) : Query :=
  (requirements.selections.findSome? fun
    | .link head query => if head.name = thisName then some query else none
    | .field _ => none).getD .empty

/-- What is required of the graph root. -/
def otherBranches (requirements : Query) : Query :=
  .ofSelections (requirements.selections.filter fun selection =>
    !(selection.isLink && selection.name == thisName))

def requirements (requests : List FieldRequest) : Query :=
  .mergeRequirements (.ofSelections [.link (.named thisName) .empty] ::
    requests.map fun request => request.field.requirements)

/-- Plans requests for fields of one owner, the owner of the first. -/
def ofRequests (first : FieldRequest) (requests : List FieldRequest) : Except BatchError Plan := do
  let owner := first.field.node
  match requests.find? fun request => request.field.node != owner with
  | some other => .error (.mixedOwners owner other.field.node)
  | none => do
      let options ← requests.mapM FieldRequest.optionValues
      let merged := requirements requests
      .ok {
        owner := owner
        objectQuery := thisBranch merged
        rootQuery := otherBranches merged
        evaluations := List.zipWith
          (fun request values => ⟨request.field, values⟩) requests options }

end Plan

/-- A result with the calls of the engine that were made on the way to it. -/
structure Logged (α : Type) where
  result : Except BatchError α
  calls : List EngineCall

namespace Logged

variable {α β : Type}

def silent (result : Except BatchError α) : Logged α := ⟨result, []⟩

def bind (logged : Logged α) (next : α → Logged β) : Logged β :=
  match logged.result with
  | .error error => ⟨.error error, logged.calls⟩
  | .ok value => ⟨(next value).result, logged.calls ++ (next value).calls⟩

def map (change : α → β) (logged : Logged α) : Logged β :=
  ⟨logged.result.map change, logged.calls⟩

end Logged

namespace Plan

def emptyObject : Value := .object []

/-- The answer of an engine to a query for objects, which holds one value for each of them. -/
def checkCount (ids objects : List Value) : Except BatchError (List Value) :=
  if objects.length = ids.length then .ok objects
  else .error (.engine ("expected " ++ toString ids.length ++ " result(s), got " ++
    toString objects.length))

def fetchObjects (plan : Plan) (engine : Engine) (ids : List Value) : Logged (List Value) :=
  if plan.objectQuery.isEmpty then .silent (.ok (ids.map fun _ => emptyObject))
  else
    { result := do
        let objects ← (engine.fetchNode plan.owner ids plan.objectQuery).mapError .engine
        checkCount ids objects
      calls := [.node plan.owner ids plan.objectQuery] }

def fetchContext (plan : Plan) (engine : Engine) : Logged Value :=
  if plan.rootQuery.isEmpty then .silent (.ok emptyObject)
  else
    { result := (engine.fetchRoot plan.rootQuery).mapError .engine
      calls := [.root plan.rootQuery] }

/-- Computes all fields for each object in turn; the first error counts. -/
def evaluate (plan : Plan) (environment : Environment) (context : Value) (objects : List Value) :
    Except BatchError (List (List Value)) :=
  objects.mapM fun this =>
    plan.evaluations.mapM fun evaluation => evaluation.run environment context this

def run (plan : Plan) (environment : Environment) (engine : Engine) (ids : List Value) :
    Logged (List (List Value)) :=
  (plan.fetchObjects engine ids).bind fun objects =>
    (plan.fetchContext engine).bind fun context =>
      .silent (plan.evaluate environment context objects)

end Plan

namespace Schema

/-- Computes every requested field for every object, in the order of ids and then of requests. -/
def compute (schema : Schema) (engine : Engine) (ids : List Value)
    (requests : List FieldRequest) : Logged (List (List Value)) :=
  match requests with
  | [] => .silent (.ok (ids.map fun _ => []))
  | first :: _ =>
      match Plan.ofRequests first requests with
      | .error error => .silent (.error error)
      | .ok plan => plan.run schema.environment engine ids

/-- The computed field that a selection on a node names, under the selection's key. -/
def request (schema : Schema) (node : String) (selection : Selection) :
    Except BatchError (String × FieldRequest) :=
  match schema.computed? node selection.name with
  | some field => .ok (selection.resultKey, ⟨field, selection.options?⟩)
  | none => .error (.unknownField node selection.name)

def requestsOf (schema : Schema) (node : String) (fields : List Head) :
    Except BatchError (List (String × FieldRequest)) := do
  let merged ← (Query.merge [.ofSelections (fields.map .field)]).mapError .merge
  merged.selections.mapM (schema.request node)

/-- Computes the fields selected on a node, keyed for every object by the selections' keys. -/
def computeFields (schema : Schema) (engine : Engine) (node : String) (ids : List Value)
    (fields : List Head) : Logged (List (Entries Value)) :=
  match schema.requestsOf node fields with
  | .error error => .silent (.error error)
  | .ok requests =>
      (schema.compute engine ids (requests.map Prod.snd)).map fun rows =>
        rows.map fun values => Entries.ofList ((requests.map Prod.fst).zip values)

end Schema

end GraphQuery
