import GraphQuery.Text.Escaped
import GraphQuery.Text.Spaced
import GraphQuery.Ty.Compatible

/-!
Types and mismatches as messages show them.
-/

namespace GraphQuery

namespace Ty

def bracketed (head : String) (inside : List Char) : List Char :=
  head.toList ++ '[' :: (inside ++ [']'])

def separator : List Char := [',', ' ']

mutual

def text : Ty → List Char
  | any => "Any".toList
  | boolean => "Boolean".toList
  | string => "String".toList
  | integer => "Integer".toList
  | float => "Float".toList
  | optional item => bracketed "Optional" (text item)
  | sequence item => bracketed "Sequence" (text item)
  | mapping key value => bracketed "Mapping" (text key ++ separator ++ text value)
  | record fields =>
      bracketed "Record" ('\x7b' :: (Text.joined separator (fieldTexts fields) ++ ['\x7d']))
  | named .type name => bracketed "TypeRef" (Text.escaped name)
  | named .interface name => bracketed "InterfaceRef" (Text.escaped name)
  | named .union name => bracketed "UnionRef" (Text.escaped name)

def fieldTexts : List (String × Ty) → List (List Char)
  | [] => []
  | (name, ty) :: rest => (Text.escaped name ++ ':' :: ' ' :: text ty) :: fieldTexts rest

end

def display (ty : Ty) : String :=
  String.ofList ty.text

end Ty

def Mismatch.message : Mismatch → String
  | .missingField name => "Missing field \"" ++ name ++ "\""
  | .types source target => "Types mismatch, " ++ source.display ++ " != " ++ target.display

end GraphQuery
