import GraphQuery.Expr.Printer
import GraphQuery.Ty.Printer

/-!
Why an expression does not fit the graph.
-/

namespace GraphQuery

inductive SpecialForm where
  | get | each | ifElse | ifSome
  deriving DecidableEq

namespace SpecialForm

def name : SpecialForm → String
  | get => "get"
  | each => "each"
  | ifElse => "if"
  | ifSome => "if_some"

def ofName? (name : String) : Option SpecialForm :=
  [get, each, ifElse, ifSome].find? fun form => form.name == name

end SpecialForm

inductive TypingError where
  | unknownSymbol (name : String)
  | unknownFunction (name : String)
  | arityMismatch (function : String) (expected given : Nat)
  | missingField (name : String)
  | notARecord (ty : Ty)
  | notASequence (ty : Ty)
  | argumentMismatch (function : String) (index : Nat) (mismatch : Mismatch)
  | noReference (expr : Expr)
  | malformed (form : SpecialForm) (expr : Expr)
  | invalidMapKey (key : Expr)
  | invalidHead (head : Expr)

namespace TypingError

def message : TypingError → String
  | unknownSymbol name => "Unknown symbol \"" ++ name ++ "\""
  | unknownFunction name => "Unknown function \"" ++ name ++ "\""
  | arityMismatch function expected given =>
      "Wrong arguments count at \"" ++ function ++ "\" function: expected " ++ toString expected ++
        ", got " ++ toString given
  | missingField name => "Missing field \"" ++ name ++ "\""
  | notARecord ty => "Not a record: " ++ ty.display
  | notASequence ty => "Not a sequence: " ++ ty.display
  | argumentMismatch function index mismatch =>
      "Invalid argument " ++ toString index ++ " of \"" ++ function ++ "\": " ++ mismatch.message
  | noReference expr => "Expression does not refer to graph data: " ++ expr.display
  | malformed form expr => "Malformed \"" ++ form.name ++ "\" form: " ++ expr.display
  | invalidMapKey key => "Map keys must be keywords: " ++ key.display
  | invalidHead head => "Application head must be a symbol: " ++ head.display

end TypingError

end GraphQuery
