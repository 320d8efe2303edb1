import GraphQuery.Expr.Basic
import GraphQuery.Reference

/-!
Checked expressions. Symbols, attributes and bound names carry the index of the reference to the
data that they denote.
-/

namespace GraphQuery

/-- A name bound by `each` or `if_some`. -/
structure Binder where
  name : String
  reference : Nat

inductive Typed where
  | symbol (reference : Nat) (name : String)
  | constant (atom : Atom)
  | get (reference : Nat) (object : Typed) (name : String)
  | each (binder : Binder) (collection body : Typed)
  | ifElse (test yes no : Typed)
  | ifSome (binder : Binder) (bound yes no : Typed)
  | call (function : String) (params : List Ty) (args : List Typed)
  | list (items : List Typed)
  | map (entries : List (String × Typed))

namespace Typed

def reference? : Typed → Option Nat
  | symbol reference _ => some reference
  | get reference _ _ => some reference
  | _ => none

end Typed

/-- A checked expression with the references that its parts point into. -/
structure Checked where
  root : Typed
  references : References

end GraphQuery
