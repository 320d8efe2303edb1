import GraphQuery.Expr.Token

/-!
Bracketed forms: tokens grouped by their brackets, with the places that errors point to. An
application has a head, so empty round brackets are no form.
-/

namespace GraphQuery

inductive Form where
  | leaf (content : Leaf) (span : Text.Span)
  | application (head : Form) (args : List Form)
  | list (items : List Form)
  | map (items : List Form) (span : Text.Span)

namespace Form

/-- An open bracket, its place, and what stands before it at its own level, last first. -/
structure Opened where
  bracket : Bracket
  first : Text.Position
  before : List Form

def ofBracket? (bracket : Bracket) (items : List Form) (span : Text.Span) : Option Form :=
  match bracket, items with
  | .round, [] => none
  | .round, head :: args => some (application head args)
  | .square, items => some (list items)
  | .curly, items => some (map items span)

/-- Reads on inside brackets not closed yet, innermost first, after forms given last first. -/
def readFrom (opened : List Opened) (before : List Form) : List PlacedToken → Option (List Form)
  | [] => if opened.isEmpty then some before.reverse else none
  | ⟨.leaf content, span⟩ :: rest => readFrom opened (.leaf content span :: before) rest
  | ⟨.opening bracket, span⟩ :: rest => readFrom (⟨bracket, span.first, before⟩ :: opened) [] rest
  | ⟨.closing bracket, span⟩ :: rest =>
      match opened with
      | [] => none
      | innermost :: outer =>
          if innermost.bracket = bracket then do
            let form ← ofBracket? bracket before.reverse ⟨innermost.first, span.stop⟩
            readFrom outer (form :: innermost.before) rest
          else none

/-- Reads exactly one form. -/
def ofTokens? (tokens : List PlacedToken) : Option Form :=
  match readFrom [] [] tokens with
  | some [form] => some form
  | _ => none

end Form

end GraphQuery
