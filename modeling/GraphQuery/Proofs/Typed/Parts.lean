import GraphQuery.Requirement.Template
import GraphQuery.Typed.Basic

/-!
The parts of checked expressions, and those among them whose values are used whole.
-/

namespace GraphQuery.Typed

def parts : Typed → List Typed
  | symbol _ _ => []
  | constant _ => []
  | get _ object _ => [object]
  | each _ collection body => [collection, body]
  | ifElse test yes no => [test, yes, no]
  | ifSome _ bound yes no => [bound, yes, no]
  | call _ _ args => args
  | list items => items
  | map entries => entries.map Prod.snd

/--
The parts right below an expression whose values it uses whole: all but the object of an attribute,
the collection of an `each`, what an `if_some` binds, and arguments for which there is a template.
-/
def uses : Typed → List Typed
  | symbol _ _ => []
  | constant _ => []
  | get _ _ _ => []
  | each _ _ body => [body]
  | ifElse test yes no => [test, yes, no]
  | ifSome _ _ yes no => [yes, no]
  | call _ params args => (args.zip params).filterMap fun (arg, param) =>
      if param.template?.isNone then some arg else none
  | list items => items
  | map entries => entries.map Prod.snd

inductive Contains : Typed → Typed → Prop
  | refl {typed} : Contains typed typed
  | step {typed part inner} : part ∈ typed.parts → Contains part inner → Contains typed inner

end GraphQuery.Typed
