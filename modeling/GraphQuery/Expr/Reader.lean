import GraphQuery.Expr.Form

/-!
Reading an expression from source text. Text that is no form at all fails before any form is looked
into; inside a form the first fault that is completed counts, so a fault inside a map goes before
the map's own.
-/

namespace GraphQuery

inductive Fault where
  | integerOutOfRange
  | oddMap

inductive ParseError where
  | grammar
  | fault (cause : Fault) (span : Text.Span)

def Fault.message : Fault → String
  | .integerOutOfRange => "integer out of range"
  | .oddMap => "map literal needs a value for every key"

namespace Leaf

def expr (leaf : Leaf) (span : Text.Span) : Except ParseError Expr :=
  match leaf with
  | .symbol name => .ok (.symbol name)
  | .constant atom => .ok (.constant atom)
  | .integer number =>
      if Int64.minValue.toInt ≤ number ∧ number ≤ Int64.maxValue.toInt then
        .ok (.constant (.integer (Int64.ofInt number)))
      else .error (.fault .integerOutOfRange span)

end Leaf

def pairs? {α : Type} : List α → Option (List (α × α))
  | [] => some []
  | [_] => none
  | key :: value :: rest => (pairs? rest).map ((key, value) :: ·)

namespace Form

mutual

def expr : Form → Except ParseError Expr
  | leaf content span => content.expr span
  | application head args => do
      let head ← expr head
      let args ← exprs args
      .ok (.application head args)
  | list items => do
      let items ← exprs items
      .ok (.list items)
  | map items span => do
      let items ← exprs items
      match pairs? items with
      | some entries => .ok (.map entries)
      | none => .error (.fault .oddMap span)

def exprs : List Form → Except ParseError (List Expr)
  | [] => .ok []
  | form :: rest => do
      let first ← expr form
      let others ← exprs rest
      .ok (first :: others)

end

end Form

namespace Expr

def parseChars (source : List Char) : Except ParseError Expr :=
  match (Token.scan? source).bind Form.ofTokens? with
  | some form => form.expr
  | none => .error .grammar

def parse (source : String) : Except ParseError Expr :=
  parseChars source.toList

end Expr

end GraphQuery
