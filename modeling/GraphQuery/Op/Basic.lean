import GraphQuery.Value.Basic

/-!
Operations that compute a field. Values of names are kept in numbered slots: the object itself in
the first, the options after it, and every bound name in a slot of its own.
-/

namespace GraphQuery

inductive Op where
  | const (value : Value)
  | slot (index : Nat)
  | context (name : String)
  | get (object : Op) (name : String)
  | each (slot : Nat) (collection body : Op)
  | ifElse (test yes no : Op)
  | ifSome (slot : Nat) (bound yes no : Op)
  | call (function : String) (args : List Op)
  | list (items : List Op)
  | map (entries : List (String × Op))

/-- An operation with the number of slots that it uses and of options that it takes. -/
structure Program where
  op : Op
  slots : Nat
  options : Nat

end GraphQuery
