/-!
Texts written one after another with a fixed text between neighbours.
-/

namespace GraphQuery.Text

def joined (between : List Char) : List (List Char) → List Char
  | [] => []
  | [text] => text
  | text :: rest => text ++ between ++ joined between rest

def spaced (texts : List (List Char)) : List Char :=
  joined [' '] texts

end GraphQuery.Text
