import GraphQuery.Decimal.Notation
import GraphQuery.Expr.Basic
import GraphQuery.Text.Quoted
import GraphQuery.Text.Spaced

/-!
Expressions as source text, on one line and with single spaces.
-/

namespace GraphQuery

def Atom.text : Atom → List Char
  | nil => "nil".toList
  | boolean truth => if truth then "true".toList else "false".toList
  | integer number => Decimal.integerText number.toInt
  | float number => number.text
  | string text => Text.quoted text.toList
  | keyword name => ':' :: name.toList

namespace Expr

mutual

def text : Expr → List Char
  | symbol name => name.toList
  | constant atom => atom.text
  | application head args => '(' :: (Text.spaced (text head :: texts args) ++ [')'])
  | list items => '[' :: (Text.spaced (texts items) ++ [']'])
  | map entries => '\x7b' :: (Text.spaced (entryTexts entries) ++ ['\x7d'])

def texts : List Expr → List (List Char)
  | [] => []
  | expr :: rest => text expr :: texts rest

def entryTexts : List (Expr × Expr) → List (List Char)
  | [] => []
  | (key, value) :: rest => (text key ++ ' ' :: text value) :: entryTexts rest

end

def display (expr : Expr) : String :=
  String.ofList expr.text

end Expr

end GraphQuery
