import GraphQuery.Proofs.Ty.Walks

/-!
Deciding whether the types of a graph are flat, from how they are written.
-/

namespace GraphQuery

namespace Ty

def isOptional : Ty → Bool
  | optional _ => true
  | _ => false

def isSequence : Ty → Bool
  | sequence _ => true
  | _ => false

def inOptional : Ty → Ty
  | optional item => item
  | ty => ty

mutual

/--
Whether no sequence is written directly inside a sequence, even through an optional, and no optional
directly inside an optional.
-/
def isFlat : Ty → Bool
  | optional item => !item.isOptional && isFlat item
  | sequence item => !item.inOptional.isSequence && isFlat item
  | record fields => areFlat fields
  | _ => true

def areFlat : List (String × Ty) → Bool
  | [] => true
  | (_, ty) :: rest => isFlat ty && areFlat rest

end

theorem isFlat_of_find? {fields : List (String × Ty)} (flat : areFlat fields = true)
    {name : String} {ty : Ty} (found : Entries.find? fields name = some ty) :
    ty.isFlat = true := by
  induction fields with
  | nil => simp at found
  | cons field rest ih =>
      obtain ⟨other, first⟩ := field
      simp only [areFlat, Bool.and_eq_true] at flat
      rw [Entries.find?_cons] at found
      split at found
      · exact Option.some.inj found ▸ flat.1
      · exact ih flat.2 found

end Ty

namespace Registry

variable {types : Registry} {ty : Ty}

theorem HoldsRecords.resolve_cases (records : types.HoldsRecords) (ty : Ty) :
    types.resolve ty = ty ∨ ∃ kind name fields, ty = .named kind name ∧
      types.get? name = some (.record fields) ∧ types.resolve ty = .record fields := by
  by_cases named : ∃ kind name, ty = .named kind name
  · obtain ⟨kind, name, rfl⟩ := named
    cases known : types.get? name with
    | none => exact Or.inl (resolve_of_next? (by simp [next?, known]))
    | some found =>
        obtain ⟨fields, rfl⟩ := records name found known
        exact Or.inr ⟨kind, name, fields, rfl, known, resolve_named kind known⟩
  · exact Or.inl (resolve_eq_self fun kind name same => named ⟨kind, name, same⟩)

theorem HoldsRecords.eq_optional (records : types.HoldsRecords) {item : Ty}
    (optional : types.resolve ty = .optional item) : ty = .optional item := by
  rcases records.resolve_cases ty with same | ⟨_, _, _, _, _, same⟩
  · exact same.symm.trans optional
  · simp [same] at optional

theorem HoldsRecords.eq_sequence (records : types.HoldsRecords) {item : Ty}
    (sequence : types.resolve ty = .sequence item) : ty = .sequence item := by
  rcases records.resolve_cases ty with same | ⟨_, _, _, _, _, same⟩
  · exact same.symm.trans sequence
  · simp [same] at sequence

theorem HoldsRecords.holdsObjects_named (records : types.HoldsRecords) (kind : NameKind)
    (name : String) : types.HoldsObjects (.named kind name) := by
  rcases records.resolve_cases (.named kind name) with same | ⟨_, _, _, _, _, same⟩
  · exact .named same
  · exact .record same

def AllFlat (types : Registry) : Prop :=
  ∀ name ty, types.get? name = some ty → ty.isFlat = true

theorem AllFlat.meets (registered : types.AllFlat) (records : types.HoldsRecords) {met : Ty}
    (meets : types.Meets ty met) (written : ty.isFlat = true) : met.isFlat = true := by
  induction meets with
  | refl => exact written
  | optional inside _ ih =>
      rw [records.eq_optional inside] at written
      simp only [Ty.isFlat, Bool.and_eq_true] at written
      exact ih written.2
  | sequence inside _ ih =>
      rw [records.eq_sequence inside] at written
      simp only [Ty.isFlat, Bool.and_eq_true] at written
      exact ih written.2
  | @field ty fields name field met inside declared _ ih =>
      have fieldsFlat : (Ty.record fields).isFlat = true := by
        rcases records.resolve_cases ty with same | ⟨_, other, _, _, known, same⟩
        · rw [same] at inside
          exact inside ▸ written
        · rw [inside, Ty.record.injEq] at same
          exact same ▸ registered other _ known
      exact ih (Ty.isFlat_of_find? fieldsFlat declared)

theorem AllFlat.flat (registered : types.AllFlat) (records : types.HoldsRecords)
    (written : ty.isFlat = true) : types.Flat ty := by
  refine ⟨?_, ?_⟩
  · intro met item inner meets optional twice
    have flat := registered.meets records meets written
    rw [records.eq_optional optional, records.eq_optional twice] at flat
    simp [Ty.isFlat, Ty.isOptional] at flat
  · intro met item inner meets sequence twice
    have flat := registered.meets records meets written
    rw [records.eq_sequence sequence] at flat
    rcases types.resolveSome_cases item with ⟨one, optional, same⟩ | ⟨_, same⟩
    · rw [records.eq_optional optional, records.eq_sequence (same.symm.trans twice)] at flat
      simp [Ty.isFlat, Ty.inOptional, Ty.isSequence] at flat
    · rw [records.eq_sequence (same.symm.trans twice)] at flat
      simp [Ty.isFlat, Ty.inOptional, Ty.isSequence] at flat

end Registry

namespace Graph

structure Flat (graph : Graph) : Prop where
  root : ∀ entry ∈ graph.root, graph.types.Flat entry.2.ty
  node : ∀ name, graph.types.Flat (.named .type name)

def isFlat (graph : Graph) : Bool :=
  graph.types.types.all (fun entry => entry.2.isFlat) &&
    graph.root.all fun entry => entry.2.ty.isFlat

theorem flat_of_isFlat {graph : Graph} (written : graph.isFlat = true) : graph.Flat := by
  simp only [isFlat, Bool.and_eq_true, List.all_eq_true] at written
  have registered : graph.types.AllFlat := by
    intro name ty known
    obtain ⟨before, after, split, _⟩ := List.lookup_eq_some_iff.mp known
    exact written.1 (name, ty) (by simp [split])
  refine ⟨?_, ?_⟩
  · exact fun entry member => registered.flat graph.types_holdsRecords (written.2 entry member)
  · exact fun name => registered.flat graph.types_holdsRecords rfl

end Graph

end GraphQuery
