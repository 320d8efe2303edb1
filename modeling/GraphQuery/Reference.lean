import GraphQuery.Ty.Basic

/-!
References of a checked expression to the data it reads. A root is labelled with the name it is
bound to, an attribute with its own name; the items of a list and what is in an optional have no
label and refer back to that list or optional.
-/

namespace GraphQuery

structure Reference where
  back? : Option Nat
  label? : Option String
  ty : Ty

structure References where
  entries : Array Reference

namespace References

def empty : References := ⟨#[]⟩

def size (references : References) : Nat :=
  references.entries.size

def get? (references : References) (index : Nat) : Option Reference :=
  references.entries[index]?

/-- Appends a reference and returns its index. -/
def push (references : References) (reference : Reference) : References × Nat :=
  (⟨references.entries.push reference⟩, references.size)

def addRoot (references : References) (name : String) (ty : Ty) : References × Nat :=
  references.push ⟨none, some name, ty⟩

def addLabelled (references : References) (back : Nat) (name : String) (ty : Ty) :
    References × Nat :=
  references.push ⟨some back, some name, ty⟩

def addUnlabelled (references : References) (back : Nat) (ty : Ty) : References × Nat :=
  references.push ⟨some back, none, ty⟩

def ty (references : References) (index : Nat) : Ty :=
  match references.get? index with
  | some reference => reference.ty
  | none => .any

def chainWithin (references : References) : Nat → Nat → List Reference
  | 0, _ => []
  | steps + 1, index =>
      match references.get? index with
      | none => []
      | some reference =>
          match reference.back? with
          | none => [reference]
          | some back => reference :: references.chainWithin steps back

/--
The references from one back to its root. A reference only ever refers back to an earlier one, so
its index bounds the way.
-/
def chain (references : References) (index : Nat) : List Reference :=
  references.chainWithin (index + 1) index

/-- The name that the root of a chain is bound to. -/
def rootName? (references : References) (index : Nat) : Option String :=
  (references.chain index).getLast?.bind Reference.label?

end References

end GraphQuery
