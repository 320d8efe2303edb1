import GraphQuery.Decimal.Notation
import GraphQuery.Text.Quoted
import GraphQuery.Text.Spaced
import GraphQuery.Value.Basic

/-!
Values as literals of the expression language. Keys of objects are written as keywords.
-/

namespace GraphQuery.Value

def booleanText (truth : Bool) : List Char :=
  if truth then "true".toList else "false".toList

mutual

def text : Value → List Char
  | null => "nil".toList
  | boolean truth => booleanText truth
  | integer number => Decimal.integerText number.toInt
  | float number => number.text
  | string text => Text.quoted text.toList
  | list items => '[' :: (Text.spaced (itemTexts items) ++ [']'])
  | object entries => '\x7b' :: (Text.spaced (entryTexts entries) ++ ['\x7d'])

def itemTexts : List Value → List (List Char)
  | [] => []
  | item :: rest => text item :: itemTexts rest

def entryTexts : List (String × Value) → List (List Char)
  | [] => []
  | (key, value) :: rest => (':' :: (key.toList ++ ' ' :: text value)) :: entryTexts rest

end

def display (value : Value) : String :=
  String.ofList value.text

end GraphQuery.Value
