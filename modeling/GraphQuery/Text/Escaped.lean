import GraphQuery.Text.Unprintable

/-!
Names written so that every character can be seen: between quotes, with a letter for the commonest
control characters and the code point in braces for all others that have no visible form.
-/

namespace GraphQuery.Text

def codePoint (c : Char) : List Char :=
  ['\\', 'u', '\x7b'] ++ Nat.toDigits 16 c.toNat ++ ['\x7d']

def visible (c : Char) : List Char :=
  match c with
  | '\x00' => ['\\', '0']
  | '\t' => ['\\', 't']
  | '\r' => ['\\', 'r']
  | '\n' => ['\\', 'n']
  | '"' => ['\\', '"']
  | '\\' => ['\\', '\\']
  | c =>
      if ' ' ≤ c ∧ c ≤ '~' then [c]
      else if isUnprintable c then codePoint c
      else [c]

def escaped (name : String) : List Char :=
  '"' :: (name.toList.flatMap visible ++ ['"'])

end GraphQuery.Text
