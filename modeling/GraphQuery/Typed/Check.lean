import GraphQuery.Environment
import GraphQuery.Requirement.Template
import GraphQuery.Typed.Basic
import GraphQuery.Typed.Error

/-!
Checking expressions against the types of a graph. Parts are checked from left to right, and each
reference that a part makes is appended to those made before it.
-/

namespace GraphQuery

/-- What is known before an expression is looked at. -/
structure Typing where
  types : Registry
  functions : Environment

/-- Names in scope with their references, innermost first. -/
abbrev Scope := List (String × Nat)

/-- The name that the second part of `get` gives. -/
def Expr.attribute? : Expr → Option String
  | symbol name => some name
  | constant (.keyword name) => some name
  | constant (.string name) => some name
  | _ => none

def Atom.ty : Atom → Ty
  | nil => .optional .any
  | boolean _ => .boolean
  | integer _ => .integer
  | float _ => .float
  | string _ => .string
  | keyword _ => .string

namespace Typing

def typeOf (typing : Typing) (references : References) (reference : Nat) : Ty :=
  typing.types.resolve (references.ty reference)

/-- The reference of a checked part that has to have one. -/
def referenceOf (expr : Expr) (typed : Typed) : Except TypingError Nat :=
  match typed.reference? with
  | some reference => .ok reference
  | none => .error (.noReference expr)

def fieldType (typing : Typing) (references : References) (object : Nat) (name : String) :
    Except TypingError Ty :=
  match typing.typeOf references object with
  | .record fields =>
      match Entries.find? fields name with
      | some ty => .ok ty
      | none => .error (.missingField name)
  | ty => .error (.notARecord ty)

def itemType (typing : Typing) (references : References) (collection : Nat) :
    Except TypingError Ty :=
  match typing.typeOf references collection with
  | .sequence item => .ok item
  | ty => .error (.notASequence ty)

/-- The reference to what is in an optional; what is not optional keeps its own reference. -/
def presentReference (typing : Typing) (references : References) (bound : Nat) :
    References × Nat :=
  match typing.typeOf references bound with
  | .optional item => references.addUnlabelled bound item
  | _ => (references, bound)

/-- Whether a checked argument fits the type of its parameter. -/
def fits (typing : Typing) (references : References) (arg : Expr) (typed : Typed) (param : Ty)
    (mismatch : Mismatch → TypingError) : Except TypingError Unit :=
  match typed.reference? with
  | some reference =>
      (typing.types.checkType (typing.typeOf references reference) param).mapError mismatch
  | none =>
      match typed with
      | .constant .nil =>
          match typing.types.resolve param with
          | .any => .ok ()
          | .optional _ => .ok ()
          | _ => .error (mismatch (.types (.optional .any) param))
      | .constant atom => (typing.types.checkType atom.ty param).mapError mismatch
      | _ => if param.template?.isSome then .error (.noReference arg) else .ok ()

mutual

def visit (typing : Typing) (scope : Scope) :
    Expr → References → Except TypingError (Typed × References)
  | .symbol name, references =>
      match scope.lookup name with
      | some reference => .ok (.symbol reference name, references)
      | none => .error (.unknownSymbol name)
  | .constant atom, references => .ok (.constant atom, references)
  | .list items, references => do
      let (items, references) ← visitList typing scope items references
      .ok (.list items, references)
  | .map entries, references => do
      let (entries, references) ← visitEntries typing scope entries references
      .ok (.map entries, references)
  | .application head args, references =>
      match head with
      | .symbol function =>
          match SpecialForm.ofName? function with
          | some .get =>
              match args with
              | [object, label] =>
                  match label.attribute? with
                  | some name => do
                      let (typed, references) ← visit typing scope object references
                      let back ← referenceOf object typed
                      let ty ← typing.fieldType references back name
                      let (references, reference) := references.addLabelled back name ty
                      .ok (.get reference typed name, references)
                  | none => .error (.malformed .get (.application head args))
              | _ => .error (.malformed .get (.application head args))
          | some .each =>
              match args with
              | [.symbol name, collection, body] => do
                  let (typed, references) ← visit typing scope collection references
                  let back ← referenceOf collection typed
                  let ty ← typing.itemType references back
                  let (references, reference) := references.addUnlabelled back ty
                  let (body, references) ← visit typing ((name, reference) :: scope) body references
                  .ok (.each ⟨name, reference⟩ typed body, references)
              | _ => .error (.malformed .each (.application head args))
          | some .ifElse =>
              match args with
              | [test, yes, no] => do
                  let (test, references) ← visit typing scope test references
                  let (yes, references) ← visit typing scope yes references
                  let (no, references) ← visit typing scope no references
                  .ok (.ifElse test yes no, references)
              | _ => .error (.malformed .ifElse (.application head args))
          | some .ifSome =>
              match args with
              | [.list [.symbol name, bound], yes, no] => do
                  let (typed, references) ← visit typing scope bound references
                  let back ← referenceOf bound typed
                  let (references, reference) := typing.presentReference references back
                  let (yes, references) ← visit typing ((name, reference) :: scope) yes references
                  let (no, references) ← visit typing scope no references
                  .ok (.ifSome ⟨name, reference⟩ typed yes no, references)
              | _ => .error (.malformed .ifSome (.application head args))
          | none =>
              match typing.functions.find? function with
              | none => .error (.unknownFunction function)
              | some found =>
                  if found.params.length = args.length then do
                    let (typed, references) ←
                      visitArgs typing scope function 0 args found.params references
                    .ok (.call function found.params typed, references)
                  else .error (.arityMismatch function found.params.length args.length)
      | _ => .error (.invalidHead head)

def visitList (typing : Typing) (scope : Scope) :
    List Expr → References → Except TypingError (List Typed × References)
  | [], references => .ok ([], references)
  | item :: rest, references => do
      let (item, references) ← visit typing scope item references
      let (rest, references) ← visitList typing scope rest references
      .ok (item :: rest, references)

def visitEntries (typing : Typing) (scope : Scope) :
    List (Expr × Expr) → References → Except TypingError (List (String × Typed) × References)
  | [], references => .ok ([], references)
  | (key, value) :: rest, references =>
      match key with
      | .constant (.keyword name) => do
          let (value, references) ← visit typing scope value references
          let (rest, references) ← visitEntries typing scope rest references
          .ok ((name, value) :: rest, references)
      | _ => .error (.invalidMapKey key)

/-- Visits arguments from a given index on, each against its parameter. -/
def visitArgs (typing : Typing) (scope : Scope) (function : String) (index : Nat) :
    List Expr → List Ty → References → Except TypingError (List Typed × References)
  | arg :: args, param :: params, references => do
      let (typed, references) ← visit typing scope arg references
      typing.fits references arg typed param (.argumentMismatch function index)
      let (rest, references) ←
        visitArgs typing scope function (index + 1) args params references
      .ok (typed :: rest, references)
  | _, _, references => .ok ([], references)

end

/-- Binds root names in order. A later binding hides an earlier one of the same name. -/
def bindRoots (roots : List (String × Ty)) : Scope × References :=
  roots.foldl (fun (scope, references) (name, ty) =>
    let (references, reference) := references.addRoot name ty
    ((name, reference) :: scope, references)) ([], .empty)

def check (typing : Typing) (roots : List (String × Ty)) (expr : Expr) :
    Except TypingError Checked := do
  let (scope, references) := bindRoots roots
  let (root, references) ← typing.visit scope expr references
  .ok ⟨root, references⟩

end Typing

end GraphQuery
