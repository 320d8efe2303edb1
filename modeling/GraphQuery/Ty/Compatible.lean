import GraphQuery.Ty.Registry

/-!
When a value of one type can be used where another is expected. A record may have more fields than
are asked for, and an optional is satisfied by what is not optional.
-/

namespace GraphQuery

inductive Mismatch where
  | missingField (name : String)
  | types (source target : Ty)

namespace Registry

/-- Every field asked for, in order, is there and passes. -/
def checkFields (check : Ty → Ty → Except Mismatch Unit) (fields : Entries Ty) :
    Entries Ty → Except Mismatch Unit
  | [] => .ok ()
  | (name, target) :: rest =>
      match fields.find? name with
      | none => .error (.missingField name)
      | some source => do
          check source target
          checkFields check fields rest

def checkWithin (registry : Registry) : Nat → Ty → Ty → Except Mismatch Unit
  | 0, source, target => .error (.types source target)
  | depth + 1, source, target =>
      match registry.resolve source, registry.resolve target with
      | _, .any => .ok ()
      | .optional source, .optional target => registry.checkWithin depth source target
      | .sequence source, .sequence target => registry.checkWithin depth source target
      | .mapping sourceKey sourceValue, .mapping targetKey targetValue => do
          registry.checkWithin depth sourceKey targetKey
          registry.checkWithin depth sourceValue targetValue
      | .record fields, .record expected =>
          checkFields (registry.checkWithin depth) fields expected
      | source, .optional target => registry.checkWithin depth source target
      | .boolean, .boolean => .ok ()
      | .string, .string => .ok ()
      | .integer, .integer => .ok ()
      | .float, .float => .ok ()
      | .named kind name, .named otherKind otherName =>
          if kind = otherKind ∧ name = otherName then .ok ()
          else .error (.types (.named kind name) (.named otherKind otherName))
      | source, target => .error (.types source target)

/--
Checks a source type against a target type. A comparison that ends never meets one pair of written
types twice on its way down, so the pairs bound its depth.
-/
def checkType (registry : Registry) (source target : Ty) : Except Mismatch Unit :=
  registry.checkWithin ((registry.size + source.size + target.size).pow 2 + 1) source target

end Registry

end GraphQuery
