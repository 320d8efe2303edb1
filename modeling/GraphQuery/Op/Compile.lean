import GraphQuery.Op.Basic
import GraphQuery.Typed.Basic

/-!
Compiling checked expressions. A bound name takes the next free slot; a name without a slot is read
from the context if its reference is a root.
-/

namespace GraphQuery

inductive CompileError where
  | unboundVariable (name : String)
  | danglingReference (index : Nat)

namespace CompileError

def message : CompileError → String
  | unboundVariable name => "Unbound variable \"" ++ name ++ "\""
  | danglingReference index => "Dangling reference #" ++ toString index

end CompileError

def Atom.value : Atom → Value
  | nil => .null
  | boolean truth => .boolean truth
  | integer number => .integer number
  | float number => .float number
  | string text => .string text
  | keyword name => .string name

/-- The name of the object that a field is computed for. -/
def thisName : String := "this"

namespace Op

/-- Names with their slots, innermost first. -/
abbrev Slots := List (String × Nat)

def ofRoot (references : References) (reference : Nat) (name : String) :
    Except CompileError Op :=
  match references.get? reference with
  | some root =>
      if root.back?.isNone then .ok (.context name) else .error (.unboundVariable name)
  | none => .error (.danglingReference reference)

mutual

/-- Compiles an expression when a given number of slots is taken, and counts the slots again. -/
def compile (references : References) (bound : Slots) :
    Typed → Nat → Except CompileError (Op × Nat)
  | .symbol reference name, used =>
      match bound.lookup name with
      | some index => .ok (.slot index, used)
      | none => do
          let op ← ofRoot references reference name
          .ok (op, used)
  | .constant atom, used => .ok (.const atom.value, used)
  | .get _ object name, used => do
      let (object, used) ← compile references bound object used
      .ok (.get object name, used)
  | .each binder collection body, used => do
      let (collection, free) ← compile references bound collection used
      let (body, used) ← compile references ((binder.name, free) :: bound) body (free + 1)
      .ok (.each free collection body, used)
  | .ifElse test yes no, used => do
      let (test, used) ← compile references bound test used
      let (yes, used) ← compile references bound yes used
      let (no, used) ← compile references bound no used
      .ok (.ifElse test yes no, used)
  | .ifSome binder value yes no, used => do
      let (value, free) ← compile references bound value used
      let (yes, used) ← compile references ((binder.name, free) :: bound) yes (free + 1)
      let (no, used) ← compile references bound no used
      .ok (.ifSome free value yes no, used)
  | .call function _ args, used => do
      let (args, used) ← compileList references bound args used
      .ok (.call function args, used)
  | .list items, used => do
      let (items, used) ← compileList references bound items used
      .ok (.list items, used)
  | .map entries, used => do
      let (entries, used) ← compileEntries references bound entries used
      .ok (.map entries, used)

def compileList (references : References) (bound : Slots) :
    List Typed → Nat → Except CompileError (List Op × Nat)
  | [], used => .ok ([], used)
  | item :: rest, used => do
      let (item, used) ← compile references bound item used
      let (rest, used) ← compileList references bound rest used
      .ok (item :: rest, used)

def compileEntries (references : References) (bound : Slots) :
    List (String × Typed) → Nat → Except CompileError (List (String × Op) × Nat)
  | [], used => .ok ([], used)
  | (key, value) :: rest, used => do
      let (value, used) ← compile references bound value used
      let (rest, used) ← compileEntries references bound rest used
      .ok ((key, value) :: rest, used)

end

/-- The slots of the object and of the options. -/
def argumentSlots (options : List String) : Slots :=
  ((thisName :: options).zipIdx).reverse

end Op

def Checked.compile (checked : Checked) (options : List String) : Except CompileError Program := do
  let (op, slots) ←
    Op.compile checked.references (Op.argumentSlots options) checked.root (options.length + 1)
  .ok ⟨op, slots, options.length⟩

end GraphQuery
