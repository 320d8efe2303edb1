import GraphQuery.Ty.Basic
import GraphQuery.Value.Basic

/-!
Functions that expressions call, by name. The types of the parameters say also what a function reads
of its arguments.
-/

namespace GraphQuery

structure Function where
  params : List Ty
  call : List Value → Except String Value

abbrev Environment := Entries Function

end GraphQuery
