import GraphQuery.Ty.Basic

/-!
Registries of named types. A name resolves to what the registry holds for it, through any number of
names; an unknown name, and a name registered as itself, resolve to themselves.
-/

namespace GraphQuery

structure Registry where
  types : Entries Ty

namespace Registry

def empty : Registry := ⟨[]⟩

def insert (registry : Registry) (name : String) (ty : Ty) : Registry :=
  ⟨registry.types.insert name ty⟩

def get? (registry : Registry) (name : String) : Option Ty :=
  registry.types.find? name

/-- What a type stands for one name further on, if it is a name that leads anywhere. -/
def next? (registry : Registry) (ty : Ty) : Option Ty :=
  match ty with
  | .named _ name => (registry.get? name).filter fun found => found != ty
  | _ => none

def resolveWithin (registry : Registry) : Nat → Ty → Ty
  | 0, ty => ty
  | steps + 1, ty =>
      match registry.next? ty with
      | some found => registry.resolveWithin steps found
      | none => ty

/-- Follows names. Names that do not run in a circle end after at most one step per entry. -/
def resolve (registry : Registry) (ty : Ty) : Ty :=
  registry.resolveWithin (registry.types.length + 1) ty

/-- What a type stands for once an optional around it is taken off. -/
def resolveSome (registry : Registry) (ty : Ty) : Ty :=
  match registry.resolve ty with
  | .optional item => registry.resolve item
  | resolved => resolved

/-- The number of types written in all entries. -/
def size (registry : Registry) : Nat :=
  Ty.sizeOfFields registry.types

end Registry

end GraphQuery
