import GraphQuery.Entries

/-!
Types of graph data. A named type stands for what a registry holds under its name. Equality of
records ignores the order of their fields.
-/

namespace GraphQuery

/-- What a name is declared as where a type mentions it. -/
inductive NameKind where
  | type | interface | union
  deriving DecidableEq

inductive Ty where
  | any
  | boolean
  | string
  | integer
  | float
  | optional (item : Ty)
  | sequence (item : Ty)
  | mapping (key value : Ty)
  | record (fields : List (String × Ty))
  | named (kind : NameKind) (name : String)

namespace Ty

mutual

protected def beq : Ty → Ty → Bool
  | any, any => true
  | boolean, boolean => true
  | string, string => true
  | integer, integer => true
  | float, float => true
  | optional item, optional other => Ty.beq item other
  | sequence item, sequence other => Ty.beq item other
  | mapping key value, mapping otherKey otherValue =>
      Ty.beq key otherKey && Ty.beq value otherValue
  | record fields, record others => fields.length == others.length && sameFields fields others
  | named kind name, named otherKind otherName => kind == otherKind && name == otherName
  | _, _ => false

/-- Whether every field of the first list has an equal type under its name in the second. -/
def sameFields : List (String × Ty) → List (String × Ty) → Bool
  | [], _ => true
  | (name, ty) :: rest, others =>
      (match Entries.find? others name with
        | some other => Ty.beq ty other
        | none => false) && sameFields rest others

end

instance : BEq Ty := ⟨Ty.beq⟩

mutual

/-- The number of types written in a type, itself included. -/
def size : Ty → Nat
  | optional item => size item + 1
  | sequence item => size item + 1
  | mapping key value => size key + size value + 1
  | record fields => sizeOfFields fields + 1
  | _ => 1

def sizeOfFields : List (String × Ty) → Nat
  | [] => 0
  | (_, ty) :: rest => size ty + sizeOfFields rest

end

/-- A record whose repeated names keep their first place and their last type. -/
def ofFields (fields : List (String × Ty)) : Ty :=
  record (Entries.ofList fields)

/-- The name that a type points to through optionals and sequences. -/
def target? : Ty → Option (NameKind × String)
  | optional item => item.target?
  | sequence item => item.target?
  | named kind name => some (kind, name)
  | _ => none

end Ty

end GraphQuery
