import GraphQuery.Decimal.Binary64

/-!
Expressions of computed fields: symbols, constants, applications, lists and maps. Equality keeps the
order of everything, the entries of maps included.
-/

namespace GraphQuery

inductive Atom where
  | nil
  | boolean (truth : Bool)
  | integer (number : Int64)
  | float (number : Binary64)
  | string (text : String)
  | keyword (name : String)
  deriving BEq

inductive Expr where
  | symbol (name : String)
  | constant (atom : Atom)
  | application (head : Expr) (args : List Expr)
  | list (items : List Expr)
  | map (entries : List (Expr × Expr))

namespace Expr

def keyword (name : String) : Expr :=
  constant (.keyword name)

def apply (function : String) (args : List Expr) : Expr :=
  application (symbol function) args

/-- The expression `(get object :name)`. -/
def get (object : Expr) (name : String) : Expr :=
  apply "get" [object, keyword name]

/-- The expression `(each name collection body)`. -/
def each (name : String) (collection body : Expr) : Expr :=
  apply "each" [symbol name, collection, body]

/-- The expression `(if_some [name bound] yes no)`. -/
def ifSome (name : String) (bound yes no : Expr) : Expr :=
  apply "if_some" [list [symbol name, bound], yes, no]

/-- The symbol that an application applies, if it applies one. -/
def head? : Expr → Option String
  | application (symbol name) _ => some name
  | _ => none

mutual

protected def beq : Expr → Expr → Bool
  | symbol name, symbol other => name == other
  | constant atom, constant other => atom == other
  | application head args, application otherHead otherArgs =>
      Expr.beq head otherHead && sameList args otherArgs
  | list items, list others => sameList items others
  | map entries, map others => samePairs entries others
  | _, _ => false

def sameList : List Expr → List Expr → Bool
  | [], [] => true
  | expr :: rest, other :: others => Expr.beq expr other && sameList rest others
  | _, _ => false

def samePairs : List (Expr × Expr) → List (Expr × Expr) → Bool
  | [], [] => true
  | (key, value) :: rest, (otherKey, otherValue) :: others =>
      Expr.beq key otherKey && Expr.beq value otherValue && samePairs rest others
  | _, _ => false

end

instance : BEq Expr := ⟨Expr.beq⟩

end Expr

end GraphQuery
