import GraphQuery.Query.Basic
import GraphQuery.Value.Printer

/-!
Queries as nested vectors, selections before fragments. Directives and the demand for order are not
shown.
-/

namespace GraphQuery

def keywordText (name : String) : List Char :=
  ':' :: name.toList

def braced (inside : List Char) : List Char :=
  '\x7b' :: (inside ++ ['\x7d'])

def parenthesized (inside : List Char) : List Char :=
  '(' :: (inside ++ [')'])

def optionsText (options : Entries Value) : List Char :=
  braced (Text.spaced (Value.entryTexts options))

def Head.text (head : Head) : List Char :=
  match head.alias?, head.options? with
  | none, none => keywordText head.name
  | none, some options =>
      parenthesized (Text.spaced [keywordText head.name, optionsText options])
  | some key, none =>
      parenthesized (Text.spaced [keywordText head.name, ":as".toList, keywordText key])
  | some key, some options =>
      parenthesized (Text.spaced
        [keywordText head.name, optionsText options, ":as".toList, keywordText key])

def typeNameText : Option String → List Char
  | some name => keywordText name
  | none => "nil".toList

namespace Query

mutual

def text : Query → List Char
  | mk selections fragments _ =>
      '[' :: (Text.spaced (selectionTexts selections ++ fragmentTexts fragments) ++ [']'])

def selectionText : Selection → List Char
  | .field head => head.text
  | .link head query => braced (Text.spaced [head.text, text query])

def fragmentText : Fragment → List Char
  | .mk typeName? query =>
      parenthesized (Text.spaced [":on".toList, typeNameText typeName?, text query])

def selectionTexts : List Selection → List (List Char)
  | [] => []
  | selection :: rest => selectionText selection :: selectionTexts rest

def fragmentTexts : List Fragment → List (List Char)
  | [] => []
  | fragment :: rest => fragmentText fragment :: fragmentTexts rest

end

def display (query : Query) : String :=
  String.ofList query.text

end Query

def Selection.display (selection : Selection) : String :=
  String.ofList (Query.selectionText selection)

def Fragment.display (fragment : Fragment) : String :=
  String.ofList (Query.fragmentText fragment)

end GraphQuery
