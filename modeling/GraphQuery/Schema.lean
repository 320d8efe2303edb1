import GraphQuery.Expr.Reader
import GraphQuery.Graph.Basic
import GraphQuery.Op.Compile
import GraphQuery.Requirement.Extract
import GraphQuery.Typed.Check

/-!
Schemas: a graph with computed fields on its nodes, each checked, compiled and reduced to what has
to be fetched for it.
-/

namespace GraphQuery

inductive Source where
  | text (source : String)
  | expr (expr : Expr)

/-- The declaration of a computed field. -/
structure ComputedFieldDef where
  node : String
  name : String
  source : Source
  options : List OptionDef

structure ComputedField where
  node : String
  name : String
  options : List OptionDef
  expr : Expr
  requirements : Query
  program : Program

structure Schema where
  graph : Graph
  environment : Environment
  fields : List ComputedField

inductive SchemaError where
  | parse (error : ParseError)
  | typing (error : TypingError)
  | compile (error : CompileError)
  | unknownNode (name : String)
  | duplicateField (field : String)
  | invalidOption (field option : String)

namespace SchemaError

def message : SchemaError → String
  | parse (.fault cause _) => cause.message
  | parse .grammar => "syntax error"
  | typing error => error.message
  | compile error => error.message
  | unknownNode name => "Unknown node \"" ++ name ++ "\""
  | duplicateField field => "Field \"" ++ field ++ "\" is already defined"
  | invalidOption field option => "Invalid option \"" ++ option ++ "\" of \"" ++ field ++ "\""

end SchemaError

/-- A computed field as messages name it. -/
def fieldPath (node name : String) : String :=
  node ++ "." ++ name

def Source.read : Source → Except SchemaError Expr
  | text source => (Expr.parse source).mapError .parse
  | expr given => .ok given

/-- The first option that is named like the object itself or like an option before it. -/
def invalidOption? (before : List String) : List OptionDef → Option String
  | [] => none
  | option :: rest =>
      if option.name == thisName || before.contains option.name then some option.name
      else invalidOption? (option.name :: before) rest

namespace ComputedFieldDef

def optionNames (definition : ComputedFieldDef) : List String :=
  definition.options.map OptionDef.name

/-- The names that the expression of a computed field can use, an option hiding a root field. -/
def roots (definition : ComputedFieldDef) (graph : Graph) : List (String × Ty) :=
  graph.root.mapValues FieldDef.ty ++
    definition.options.map (fun option => (option.name, option.ty)) ++
    [(thisName, .named .type definition.node)]

end ComputedFieldDef

/-- Requirements without what the options of a field provide. -/
def Query.withoutOptions (requirements : Query) (options : List String) : Query :=
  .ofSelections (requirements.selections.filter fun selection => !options.contains selection.name)

namespace Schema

def find? (fields : List ComputedField) (node name : String) : Option ComputedField :=
  fields.find? fun field => field.node == node && field.name == name

def computed? (schema : Schema) (node name : String) : Option ComputedField :=
  find? schema.fields node name

/-- Checks a declaration beside the fields that are defined before it. -/
def define (graph : Graph) (environment : Environment) (fields : List ComputedField)
    (definition : ComputedFieldDef) : Except SchemaError ComputedField := do
  let path := fieldPath definition.node definition.name
  match graph.node? definition.node with
  | none => .error (.unknownNode definition.node)
  | some node =>
      if node.fields.contains definition.name ||
          (find? fields definition.node definition.name).isSome then
        .error (.duplicateField path)
      else match invalidOption? [] definition.options with
        | some option => .error (.invalidOption path option)
        | none => do
            let expr ← definition.source.read
            let typing : Typing := ⟨graph.types, environment⟩
            let checked ← (typing.check (definition.roots graph) expr).mapError .typing
            let requirements :=
              (checked.requirements graph.types).withoutOptions definition.optionNames
            let program ← (checked.compile definition.optionNames).mapError .compile
            .ok ⟨definition.node, definition.name, definition.options, expr, requirements, program⟩

def defineAll (graph : Graph) (environment : Environment) (fields : List ComputedField) :
    List ComputedFieldDef → Except SchemaError (List ComputedField)
  | [] => .ok fields
  | definition :: rest => do
      let field ← define graph environment fields definition
      defineAll graph environment (fields ++ [field]) rest

/-- Builds a schema, failing on the first declaration that is wrong. -/
def build (graph : Graph) (environment : Environment) (definitions : List ComputedFieldDef) :
    Except SchemaError Schema := do
  let fields ← defineAll graph environment [] definitions
  .ok ⟨graph, environment, fields⟩

end Schema

end GraphQuery
