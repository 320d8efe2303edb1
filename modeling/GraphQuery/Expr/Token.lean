import GraphQuery.Decimal.Reading
import GraphQuery.Expr.Basic
import GraphQuery.Text.Position
import GraphQuery.Text.Quoted

/-!
Tokens of source text. Blanks, commas and comments stand between tokens and are needed only where
two words would run together. A word is the longest run of name characters, which are ASCII letters
and digits and a few signs, so `-1.5x` is one symbol and `1x` is no token at all.
-/

namespace GraphQuery

inductive Bracket where
  | round | square | curly
  deriving DecidableEq

/-- A token that is an expression by itself. The size of an integer is not limited yet. -/
inductive Leaf where
  | symbol (name : String)
  | constant (atom : Atom)
  | integer (number : Int)

inductive Token where
  | opening (bracket : Bracket)
  | closing (bracket : Bracket)
  | leaf (content : Leaf)

structure PlacedToken where
  token : Token
  span : Text.Span

namespace Token

def isLayout (c : Char) : Bool :=
  c == ' ' || c == '\t' || c == '\r' || c == '\n' || c == ','

def isNameStart (c : Char) : Bool :=
  c.isAlpha || "_-+*/<>=!?".toList.contains c

def isNameChar (c : Char) : Bool :=
  isNameStart c || c.isDigit || c == '.'

def isName : List Char → Bool
  | [] => false
  | first :: rest => isNameStart first && rest.all isNameChar

/-- Reads digits with an optional minus before them and an optional fraction after them. -/
def number? (word : List Char) : Option Leaf :=
  let (negative, unsigned) := match word with
    | '-' :: rest => (true, rest)
    | _ => (false, word)
  match unsigned.takeWhile Char.isDigit, unsigned.dropWhile Char.isDigit with
  | [], _ => none
  | whole, [] =>
      let magnitude : Int := Decimal.numeral whole
      some (.integer (if negative then -magnitude else magnitude))
  | whole, '.' :: fraction =>
      if !fraction.isEmpty && fraction.all Char.isDigit then
        some (.constant (.float (Decimal.read negative whole fraction)))
      else none
  | _, _ => none

def word? (word : List Char) : Option Leaf :=
  if word = "nil".toList then some (.constant .nil)
  else if word = "true".toList then some (.constant (.boolean true))
  else if word = "false".toList then some (.constant (.boolean false))
  else match number? word with
    | some number => some number
    | none => if isName word then some (.symbol (String.ofList word)) else none

def keyword? (word : List Char) : Option Leaf :=
  if isName word then some (.constant (.keyword (String.ofList word))) else none

/-- What the characters read last belong to; their letters are kept last first. -/
inductive State where
  | between
  | comment
  | word (first : Text.Position) (letters : List Char)
  | keyword (first : Text.Position) (letters : List Char)
  | string (first : Text.Position) (letters : List Char)
  | escape (first : Text.Position) (letters : List Char)

def bracket? : Char → Option Token
  | '(' => some (.opening .round)
  | ')' => some (.closing .round)
  | '[' => some (.opening .square)
  | ']' => some (.closing .square)
  | '\x7b' => some (.opening .curly)
  | '\x7d' => some (.closing .curly)
  | _ => none

/-- Reads a character that belongs to no earlier token. -/
def start? (position : Text.Position) (c : Char) : Option (List PlacedToken × State) :=
  match bracket? c with
  | some token => some ([⟨token, position, position.after c⟩], .between)
  | none =>
      if isLayout c then some ([], .between)
      else if c = ';' then some ([], .comment)
      else if c = '"' then some ([], .string position [])
      else if c = ':' then some ([], .keyword position [])
      else if isNameChar c then some ([], .word position [c])
      else none

/-- The tokens that are complete before a place where none goes on. -/
def finish? (state : State) (position : Text.Position) : Option (List PlacedToken) :=
  match state with
  | .between => some []
  | .comment => some []
  | .word first letters =>
      (word? letters.reverse).map fun leaf => [⟨.leaf leaf, first, position⟩]
  | .keyword first letters =>
      (keyword? letters.reverse).map fun leaf => [⟨.leaf leaf, first, position⟩]
  | .string _ _ => none
  | .escape _ _ => none

def step? (state : State) (position : Text.Position) (c : Char) :
    Option (List PlacedToken × State) :=
  match state with
  | .comment => some ([], if c = '\n' then .between else .comment)
  | .string first letters =>
      if c = '"' then
        let leaf := Leaf.constant (.string (String.ofList letters.reverse))
        some ([⟨.leaf leaf, first, position.after c⟩], .between)
      else if c = '\\' then some ([], .escape first letters)
      else some ([], .string first (c :: letters))
  | .escape first letters =>
      (Text.unescape? c).map fun letter => ([], .string first (letter :: letters))
  | .between => start? position c
  | .word first letters =>
      if isNameChar c then some ([], .word first (c :: letters))
      else do
        let complete ← finish? state position
        let (tokens, next) ← start? position c
        some (complete ++ tokens, next)
  | .keyword first letters =>
      if isNameChar c then some ([], .keyword first (c :: letters))
      else do
        let complete ← finish? state position
        let (tokens, next) ← start? position c
        some (complete ++ tokens, next)

def scanFrom (state : State) (position : Text.Position) : List Char → Option (List PlacedToken)
  | [] => finish? state position
  | c :: rest => do
      let (tokens, next) ← step? state position c
      let others ← scanFrom next (position.after c) rest
      some (tokens ++ others)

def scan? (source : List Char) : Option (List PlacedToken) :=
  scanFrom .between .start source

end Token

end GraphQuery
