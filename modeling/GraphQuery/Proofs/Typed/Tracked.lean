import GraphQuery.Proofs.Ty.Walks
import GraphQuery.Proofs.Typed.Judgement

/-!
Where the references of a checked expression lead: to a root, and from there along labels through
the types of the graph.
-/

namespace GraphQuery

namespace References

def path (references : References) (index : Nat) : List String :=
  (references.chain index).reverse.filterMap Reference.label?

theorem path_of_root {references : References} {index : Nat} {reference : Reference}
    (found : references.get? index = some reference) (root : reference.back? = none) :
    references.path index = reference.label?.toList := by
  rw [path, chain_of_root found root]
  cases label : reference.label? with
  | none => simp [label]
  | some name => simp [label]

theorem path_of_back {references : References} (ordered : references.Ordered) {index back : Nat}
    {reference : Reference} (found : references.get? index = some reference)
    (refers : reference.back? = some back) :
    references.path index = references.path back ++ reference.label?.toList := by
  rw [path, chain_of_back ordered found refers, List.reverse_cons, List.filterMap_append, path]
  cases label : reference.label? with
  | none => simp [label]
  | some name => simp [label]

end References

namespace Typing

inductive Tracked (typing : Typing) (references : References) (roots : List (String × Ty)) :
    Nat → Prop
  | root {index name ty} : references.get? index = some ⟨none, some name, ty⟩ →
      roots.reverse.lookup name = some ty → Tracked typing references roots index
  | field {index back name fields ty} :
      references.get? index = some ⟨some back, some name, ty⟩ →
      typing.typeOf references back = .record fields → Entries.find? fields name = some ty →
      Tracked typing references roots back → Tracked typing references roots index
  | item {index back ty} : references.get? index = some ⟨some back, none, ty⟩ →
      typing.typeOf references back = .sequence ty →
      Tracked typing references roots back → Tracked typing references roots index
  | present {index back ty} : references.get? index = some ⟨some back, none, ty⟩ →
      typing.typeOf references back = .optional ty →
      Tracked typing references roots back → Tracked typing references roots index

def Leads (types : Registry) (roots : List (String × Ty)) (path : List String) (ty : Ty) : Prop :=
  ∃ name labels root, path = name :: labels ∧ roots.reverse.lookup name = some root ∧
    types.Walks root labels ty

variable {typing : Typing} {types : Registry} {references : References}
  {roots : List (String × Ty)} {path rest : List String} {ty other : Ty} {scope : Scope}
  {index : Nat}

namespace Leads

theorem unique (leads : Leads types roots path ty) (leadsToo : Leads types roots path other) :
    ty = other := by
  obtain ⟨name, labels, root, rfl, found, walks⟩ := leads
  obtain ⟨_, _, rootToo, same, foundToo, walksToo⟩ := leadsToo
  simp only [List.cons.injEq] at same
  obtain ⟨rfl, rfl⟩ := same
  obtain rfl := Option.some.inj (found.symm.trans foundToo)
  exact walks.unique walksToo

theorem extend (leads : Leads types roots path ty) (walks : types.Walks ty rest other) :
    Leads types roots (path ++ rest) other := by
  obtain ⟨name, labels, root, rfl, found, way⟩ := leads
  exact ⟨name, labels ++ rest, root, rfl, found, way.trans walks⟩

theorem before (leads : Leads types roots (path ++ rest) ty) (begun : path ≠ [])
    (more : rest ≠ []) : ∃ mid, Leads types roots path mid ∧ types.HoldsObjects mid := by
  obtain ⟨name, labels, root, same, found, walks⟩ := leads
  obtain ⟨first, others, rfl⟩ := List.exists_cons_of_ne_nil begun
  simp only [List.cons_append, List.cons.injEq] at same
  obtain ⟨rfl, rfl⟩ := same
  obtain ⟨mid, before, after⟩ := walks.split
  exact ⟨mid, ⟨_, _, root, rfl, found, before⟩, after.holdsObjects more⟩

end Leads

/-- A path leads to the type of a reference, optionals and sequences on the last step aside. -/
def Reached (types : Registry) (roots : List (String × Ty)) (path : List String) (ty : Ty) :
    Prop :=
  ∃ outer, Leads types roots path outer ∧ types.Peels outer ty

theorem Tracked.reached (tracked : Tracked typing references roots index)
    (ordered : references.Ordered) :
    Reached typing.types roots (references.path index) (references.ty index) := by
  induction tracked with
  | @root index name ty entry found =>
      rw [References.path_of_root entry rfl, References.ty_of_get? entry]
      exact ⟨ty, ⟨name, [], ty, rfl, found, .nil⟩, .refl⟩
  | @field index back name fields ty entry record declared _ ih =>
      obtain ⟨outer, leads, peels⟩ := ih
      rw [References.path_of_back ordered entry rfl, References.ty_of_get? entry]
      exact ⟨ty, leads.extend (.cons (peels.reaches (.record record)) declared .nil), .refl⟩
  | @item index back ty entry sequence _ ih =>
      obtain ⟨outer, leads, peels⟩ := ih
      rw [References.path_of_back ordered entry rfl, References.ty_of_get? entry]
      exact ⟨outer, by simpa using leads, .sequence peels sequence⟩
  | @present index back ty entry optional _ ih =>
      obtain ⟨outer, leads, peels⟩ := ih
      rw [References.path_of_back ordered entry rfl, References.ty_of_get? entry]
      exact ⟨outer, by simpa using leads, .optional peels optional⟩

theorem Tracked.path_ne_nil (tracked : Tracked typing references roots index)
    (ordered : references.Ordered) : references.path index ≠ [] := by
  obtain ⟨_, ⟨name, labels, _, same, _⟩, _⟩ := tracked.reached ordered
  simp [same]

theorem Presents.tracked {back : Nat} (presents : Presents typing references back index)
    (tracked : Tracked typing references roots back) :
    Tracked typing references roots index := by
  rcases presents with ⟨item, optional, entry⟩ | ⟨_, same⟩
  · exact .present entry optional tracked
  · exact same ▸ tracked

end Typing

def Scope.Tracked (typing : Typing) (references : References) (roots : List (String × Ty))
    (scope : Scope) : Prop :=
  ∀ name reference, scope.lookup name = some reference →
    Typing.Tracked typing references roots reference

namespace Scope.Tracked

variable {typing : Typing} {references : References} {roots : List (String × Ty)} {scope : Scope}

theorem ofRoots (binds : Typing.BindsRoots roots scope references) :
    scope.Tracked typing references roots := by
  intro name reference found
  obtain ⟨ty, bound, entry⟩ := binds.root name reference found
  exact .root entry bound

theorem cons (tracked : scope.Tracked typing references roots) (name : String) {reference : Nat}
    (trackedToo : Typing.Tracked typing references roots reference) :
    Scope.Tracked typing references roots ((name, reference) :: scope) := by
  intro sought found lookup
  by_cases same : sought = name
  · simp only [same, List.lookup_cons_self, Option.some.injEq] at lookup
    exact lookup ▸ trackedToo
  · have different : (sought == name) = false := beq_eq_false_iff_ne.mpr same
    simp only [List.lookup_cons, different] at lookup
    exact tracked sought found lookup

end Scope.Tracked

theorem Typing.WellTyped.tracked {typing : Typing} {references : References}
    {roots : List (String × Ty)} {scope : Scope} {typed : Typed}
    (wellTyped : typing.WellTyped references scope typed)
    (tracked : scope.Tracked typing references roots) {reference : Nat}
    (own : typed.reference? = some reference) :
    Typing.Tracked typing references roots reference := by
  induction wellTyped generalizing reference with
  | symbol found =>
      simp only [Typed.reference?, Option.some.injEq] at own
      exact own ▸ tracked _ _ found
  | get ownObject record declared entry _ ih =>
      simp only [Typed.reference?, Option.some.injEq] at own
      exact own ▸ .field entry record declared (ih tracked ownObject)
  | constant | each | ifElse | ifSome | call | list | map => simp [Typed.reference?] at own

end GraphQuery
