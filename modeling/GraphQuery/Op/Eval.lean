import GraphQuery.Environment
import GraphQuery.Op.Basic

/-!
Evaluating operations in one frame, which bound names write to as evaluation goes on. The object of
an attribute that is reached through slots, the context and further attributes alone is followed
without evaluating anything else.
-/

namespace GraphQuery

inductive EvalError where
  | undefinedFunction (name : String)
  | missingContext (name : String)
  | missingAttribute (name : String) (kind : Value.Kind)
  | notAList (kind : Value.Kind)
  | optionCount (expected given : Nat)
  | functionFailed (name message : String)

namespace EvalError

def message : EvalError → String
  | undefinedFunction name => "Function \"" ++ name ++ "\" is not defined in the environment"
  | missingContext name => "Missing value for context field \"" ++ name ++ "\""
  | missingAttribute name kind => "Missing attribute \"" ++ name ++ "\" in " ++ kind.name
  | notAList kind => "Expected " ++ Value.Kind.list.name ++ ", got " ++ kind.name
  | optionCount expected given =>
      "Expected " ++ toString expected ++ " option value(s), got " ++ toString given
  | functionFailed name message => "Function \"" ++ name ++ "\" failed: " ++ message

end EvalError

namespace Value

def readAttribute (value : Value) (name : String) : Except EvalError Value :=
  match value.get? name with
  | some found => .ok found
  | none => .error (.missingAttribute name value.kind)

def readContext (context : Value) (name : String) : Except EvalError Value :=
  match context.get? name with
  | some found => .ok found
  | none => .error (.missingContext name)

end Value

/-- The values in the slots; a slot that nothing is written to holds null. -/
abbrev Frame := List Value

def Frame.read (frame : Frame) (slot : Nat) : Value :=
  frame.getD slot .null

def Function.apply (function : Function) (name : String) (args : List Value) :
    Except EvalError Value :=
  (function.call args).mapError (.functionFailed name)

namespace Op

/-- The value at the end of a path of attributes, if an operation is one. -/
def path? (context : Value) (frame : Frame) : Op → Option (Except EvalError Value)
  | slot index => some (.ok (frame.read index))
  | .context name => some (context.readContext name)
  | get object name =>
      (path? context frame object).map fun found => found.bind fun value => value.readAttribute name
  | _ => none

/-- Runs a body for each item in turn, the item written to a slot before. -/
def forEach (body : Frame → Except EvalError (Value × Frame)) (index : Nat) :
    List Value → Frame → Except EvalError (List Value × Frame)
  | [], frame => .ok ([], frame)
  | item :: rest, frame => do
      let (value, frame) ← body (frame.set index item)
      let (values, frame) ← forEach body index rest frame
      .ok (value :: values, frame)

mutual

/-- The value of an operation with the frame that is left behind. -/
def eval (environment : Environment) (context : Value) :
    Op → Frame → Except EvalError (Value × Frame)
  | const value, frame => .ok (value, frame)
  | slot index, frame => .ok (frame.read index, frame)
  | .context name, frame => do
      let value ← context.readContext name
      .ok (value, frame)
  | get object name, frame =>
      match path? context frame object with
      | some found => do
          let value ← found
          let value ← value.readAttribute name
          .ok (value, frame)
      | none => do
          let (value, frame) ← eval environment context object frame
          let value ← value.readAttribute name
          .ok (value, frame)
  | each index collection body, frame => do
      let (value, frame) ← eval environment context collection frame
      match value with
      | .list items => do
          let (values, frame) ← forEach (eval environment context body) index items frame
          .ok (.list values, frame)
      | value => .error (.notAList value.kind)
  | ifElse test yes no, frame => do
      let (value, frame) ← eval environment context test frame
      if value.isTruthy then eval environment context yes frame
      else eval environment context no frame
  | ifSome index bound yes no, frame => do
      let (value, frame) ← eval environment context bound frame
      match value with
      | .null => eval environment context no frame
      | value => eval environment context yes (frame.set index value)
  | call name args, frame =>
      match environment.find? name with
      | none => .error (.undefinedFunction name)
      | some function => do
          let (values, frame) ← evalList environment context args frame
          let value ← function.apply name values
          .ok (value, frame)
  | list items, frame => do
      let (values, frame) ← evalList environment context items frame
      .ok (.list values, frame)
  | map entries, frame => do
      let (values, frame) ← evalEntries environment context entries frame
      .ok (.ofPairs values, frame)

def evalList (environment : Environment) (context : Value) :
    List Op → Frame → Except EvalError (List Value × Frame)
  | [], frame => .ok ([], frame)
  | op :: rest, frame => do
      let (value, frame) ← eval environment context op frame
      let (values, frame) ← evalList environment context rest frame
      .ok (value :: values, frame)

def evalEntries (environment : Environment) (context : Value) :
    List (String × Op) → Frame → Except EvalError (List (String × Value) × Frame)
  | [], frame => .ok ([], frame)
  | (key, op) :: rest, frame => do
      let (value, frame) ← eval environment context op frame
      let (values, frame) ← evalEntries environment context rest frame
      .ok ((key, value) :: values, frame)

end

end Op

namespace Program

def frame (program : Program) (this : Value) (options : List Value) : Frame :=
  this :: options ++ List.replicate (program.slots - (options.length + 1)) .null

def call (program : Program) (environment : Environment) (this context : Value)
    (options : List Value) : Except EvalError Value :=
  if options.length = program.options then
    (program.op.eval environment context (program.frame this options)).map Prod.fst
  else .error (.optionCount program.options options.length)

end Program

end GraphQuery
