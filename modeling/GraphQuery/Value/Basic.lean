import GraphQuery.Entries
import GraphQuery.Decimal.Binary64

/-!
Values of options, of fetched data and of computed fields. Equality of objects ignores the order of
their entries.
-/

namespace GraphQuery

inductive Value where
  | null
  | boolean (truth : Bool)
  | integer (number : Int64)
  | float (number : Binary64)
  | string (text : String)
  | list (items : List Value)
  | object (entries : List (String × Value))

namespace Value

mutual

protected def beq : Value → Value → Bool
  | null, null => true
  | boolean a, boolean b => a == b
  | integer a, integer b => a == b
  | float a, float b => a == b
  | string a, string b => a == b
  | list items, list others => sameItems items others
  | object entries, object others =>
      entries.length == others.length && sameEntries entries others
  | _, _ => false

def sameItems : List Value → List Value → Bool
  | [], [] => true
  | item :: rest, other :: others => Value.beq item other && sameItems rest others
  | _, _ => false

/-- Whether every entry of the first list has an equal value under its name in the second. -/
def sameEntries : List (String × Value) → List (String × Value) → Bool
  | [], _ => true
  | (key, value) :: rest, others =>
      (match Entries.find? others key with
        | some other => Value.beq value other
        | none => false) && sameEntries rest others

end

instance : BEq Value := ⟨Value.beq⟩

/-- Equality of named values in any order. -/
def equalEntries (entries others : Entries Value) : Bool :=
  entries.length == others.length && sameEntries entries others

def isNull : Value → Bool
  | null => true
  | _ => false

/-- What a condition takes for true: all but null, false, zero and what is empty. -/
def isTruthy : Value → Bool
  | null => false
  | boolean truth => truth
  | integer number => number != 0
  | float number => !number.isZero
  | string text => !text.isEmpty
  | list items => !items.isEmpty
  | object entries => !entries.isEmpty

def entries? : Value → Option (Entries Value)
  | object entries => some entries
  | _ => none

def items? : Value → Option (List Value)
  | list items => some items
  | _ => none

def get? (value : Value) (key : String) : Option Value :=
  value.entries?.bind fun entries => entries.find? key

inductive Kind where
  | null | boolean | integer | float | string | list | object
  deriving DecidableEq

def kind : Value → Kind
  | null => .null
  | boolean _ => .boolean
  | integer _ => .integer
  | float _ => .float
  | string _ => .string
  | list _ => .list
  | object _ => .object

def Kind.name : Kind → String
  | .null => "null"
  | .boolean => "boolean"
  | .integer => "integer"
  | .float => "float"
  | .string => "string"
  | .list => "list"
  | .object => "object"

/-- An object whose repeated keys keep their first place and their last value. -/
def ofPairs (pairs : List (String × Value)) : Value :=
  object (Entries.ofList pairs)

end Value

end GraphQuery
