/-!
Quoted text: a backslash stands before a quote, a backslash and the letters of a newline and a tab.
Every other character stands for itself.
-/

namespace GraphQuery.Text

def escape : Char → List Char
  | '"' => ['\\', '"']
  | '\\' => ['\\', '\\']
  | '\n' => ['\\', 'n']
  | '\t' => ['\\', 't']
  | c => [c]

/-- The character that an escape letter stands for. -/
def unescape? : Char → Option Char
  | '"' => some '"'
  | '\\' => some '\\'
  | 'n' => some '\n'
  | 't' => some '\t'
  | _ => none

def quoted (text : List Char) : List Char :=
  '"' :: (text.flatMap escape ++ ['"'])

end GraphQuery.Text
