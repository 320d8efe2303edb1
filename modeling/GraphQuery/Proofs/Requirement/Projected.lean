import GraphQuery.Proofs.Query.Project
import GraphQuery.Proofs.Requirement.Supply

/-!
Expressions cannot tell data from its projection. A value with a reference to objects may be
projected onto what is selected below the path of the reference; all other values are whole.
-/

namespace GraphQuery

def Ty.seen (param : Ty) (value : Value) : Value :=
  match param.template? with
  | some query => query.project value
  | none => value

/-- The result depends on arguments only through what templates ask for, where there are any. -/
def Function.Confined (function : Function) : Prop :=
  ∀ args others, args.length = function.params.length → others.length = function.params.length →
    List.zipWith Ty.seen function.params args = List.zipWith Ty.seen function.params others →
    function.call args = function.call others

namespace Typed

def Carries (types : Registry) (references : References) (typed : Typed) : Prop :=
  ∃ index, typed.reference? = some index ∧ types.HoldsObjects (references.ty index)

/-- No part that has a reference to objects is used whole by the part around it. -/
def Discreet (types : Registry) (references : References) (typed : Typed) : Prop :=
  ∀ part, typed.Contains part → ∀ used ∈ part.uses, ¬ used.Carries types references

def Confined (functions : Environment) (typed : Typed) : Prop :=
  ∀ name params args, typed.Contains (.call name params args) →
    ∀ function, functions.find? name = some function → function.Confined

theorem Discreet.part {types : Registry} {references : References} {typed part : Typed}
    (discreet : typed.Discreet types references) (member : part ∈ typed.parts) :
    part.Discreet types references :=
  fun inner inside => discreet inner (.step member inside)

theorem Confined.part {functions : Environment} {typed part : Typed}
    (confined : typed.Confined functions) (member : part ∈ typed.parts) :
    part.Confined functions :=
  fun name params args inside => confined name params args (.step member inside)

end Typed

namespace Requirement

structure Setting (typing : Typing) (references : References) (roots : List (String × Ty))
    (options : List String) (merged : Query) : Prop where
  ordered : references.Ordered
  flat : FlatRoots typing.types roots options
  plain : merged.Plain
  distinct : merged.Distinct

def Sees (types : Registry) (references : References) (options : List String) (merged : Query)
    (index : Nat) (seen full : Value) : Prop :=
  seen = full ∨ (Visible options (references.path index) ∧
    types.HoldsObjects (references.ty index) ∧
    seen = (merged.branch (references.path index)).project full)

variable {typing : Typing} {references : References} {roots : List (String × Ty)}
  {options : List String} {merged : Query} {index back : Nat} {seen full : Value}

namespace Sees

theorem kind_eq {types : Registry} (sees : Sees types references options merged index seen full) :
    seen.kind = full.kind := by
  rcases sees with rfl | ⟨_, _, rfl⟩
  · rfl
  · exact Query.kind_project _ _

theorem eq_null_iff {types : Registry}
    (sees : Sees types references options merged index seen full) :
    seen = .null ↔ full = .null := by
  rcases sees with rfl | ⟨_, _, rfl⟩
  · rfl
  · exact Query.project_eq_null_iff _ _

theorem eq_of_data {types : Registry}
    (sees : Sees types references options merged index seen full)
    (data : ¬ types.HoldsObjects (references.ty index)) : seen = full := by
  rcases sees with same | ⟨_, objects, _⟩
  · exact same
  · exact (data objects).elim

theorem unlabelled {types : Registry} {ty : Ty} (ordered : references.Ordered)
    (entry : references.get? index = some ⟨some back, none, ty⟩)
    (iff : types.HoldsObjects (references.ty back) ↔ types.HoldsObjects ty)
    (sees : Sees types references options merged back seen full) :
    Sees types references options merged index seen full := by
  have same : references.path index = references.path back := by
    simp [References.path_of_back ordered entry rfl]
  rcases sees with equal | ⟨visible, objects, projected⟩
  · exact Or.inl equal
  · refine Or.inr ⟨same ▸ visible, ?_, same ▸ projected⟩
    rw [References.ty_of_get? entry]
    exact iff.mp objects

theorem present (sees : Sees typing.types references options merged back seen full)
    (ordered : references.Ordered) (presents : typing.Presents references back index) :
    Sees typing.types references options merged index seen full := by
  rcases presents with ⟨item, optional, entry⟩ | ⟨_, rfl⟩
  · exact sees.unlabelled ordered entry (Registry.holdsObjects_optional_iff optional)
  · exact sees

theorem items {ty : Ty} {values : List Value} (ordered : references.Ordered)
    (entry : references.get? index = some ⟨some back, none, ty⟩)
    (sequence : typing.typeOf references back = .sequence ty)
    (sees : Sees typing.types references options merged back seen (.list values)) :
    ∃ change, seen = .list (values.map change) ∧
      ∀ value, Sees typing.types references options merged index (change value) value := by
  have iff := Registry.holdsObjects_sequence_iff sequence
  rcases sees with rfl | ⟨visible, objects, rfl⟩
  · exact ⟨id, by simp, fun value => Or.inl rfl⟩
  · refine ⟨(merged.branch (references.path back)).project, Query.project_list _ _, ?_⟩
    exact fun value => unlabelled ordered entry iff (Or.inr ⟨visible, objects, rfl⟩)

theorem get? {name : String} {ty : Ty} (setting : Setting typing references roots options merged)
    (tracked : typing.Tracked references roots index)
    (trackedBack : typing.Tracked references roots back)
    (entry : references.get? index = some ⟨some back, some name, ty⟩)
    (supplied : ∀ query ∈ ofReference typing.types references index none,
      Supplies merged options query)
    (sees : Sees typing.types references options merged back seen full) :
    (seen.get? name = none ∧ full.get? name = none) ∨
      ∃ value whole, seen.get? name = some value ∧ full.get? name = some whole ∧
        Sees typing.types references options merged index value whole := by
  rcases sees with rfl | ⟨visibleBack, _, rfl⟩
  · cases found : seen.get? name with
    | none => exact Or.inl ⟨rfl, rfl⟩
    | some value => exact Or.inr ⟨value, value, rfl, rfl, Or.inl rfl⟩
  · have onward := References.path_of_back setting.ordered entry rfl
    have visible : Visible options (references.path index) :=
      onward ▸ (visible_append_iff (trackedBack.path_ne_nil setting.ordered)).mpr visibleBack
    have plain := setting.plain.branch (references.path back)
    have distinct := setting.distinct.branch (references.path back)
    have below : ∀ link, merged.Selects link (references.path index) →
        (merged.branch (references.path back)).Selects link [name] := by
      intro link selects
      rw [onward] at selects
      exact (Query.selects_branch_iff setting.distinct (by simp)).mpr selects
    by_cases objects : typing.types.HoldsObjects (references.ty index)
    · have selects := selects_objects tracked setting.ordered setting.flat supplied
        visible objects
      have looked := Query.get?_project_link plain distinct (below true selects) full
      rw [looked]
      cases found : full.get? name with
      | none => exact Or.inl ⟨rfl, rfl⟩
      | some whole =>
          refine Or.inr ⟨_, whole, rfl, rfl, Or.inr ⟨visible, objects, ?_⟩⟩
          rw [onward, Query.branch_append]
          rfl
    · have selects := selects_data tracked setting.ordered setting.flat supplied
        visible objects
      have looked := Query.get?_project_field plain distinct (below false selects) full
      rw [looked]
      cases found : full.get? name with
      | none => exact Or.inl ⟨rfl, rfl⟩
      | some whole => exact Or.inr ⟨whole, whole, rfl, rfl, Or.inl rfl⟩

theorem template {below : Query} (setting : Setting typing references roots options merged)
    (tracked : typing.Tracked references roots index) (plain : below.Plain)
    (supplied : ∀ query ∈ ofReference typing.types references index (some below),
      Supplies merged options query)
    (sees : Sees typing.types references options merged index seen full) :
    below.project seen = below.project full := by
  rcases sees with rfl | ⟨visible, objects, rfl⟩
  · rfl
  · have supplies := supplies_objects tracked setting.ordered setting.flat supplied
      visible objects
    have includes : (merged.branch (references.path index)).Includes below := by
      intro link path selects
      have more : path ≠ [] := by
        rintro rfl
        exact Query.not_selects_nil selects
      refine (Query.selects_branch_iff setting.distinct more).mpr (supplies link _ ?_ ?_)
      · exact Query.selects_nest_iff.mpr (Or.inr ⟨path, rfl, selects⟩)
      · exact (visible_append_iff (tracked.path_ne_nil setting.ordered)).mpr visible
    exact includes.project_project plain (setting.plain.branch _) (setting.distinct.branch _) full

end Sees

end Requirement

end GraphQuery
