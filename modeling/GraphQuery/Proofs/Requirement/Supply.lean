import GraphQuery.Proofs.Requirement.Collect

/-!
Queries that supply what an expression requires.
-/

namespace GraphQuery.Requirement

def Supplies (merged : Query) (options : List String) (query : Query) : Prop :=
  ∀ link path, query.Selects link path → Visible options path → merged.Selects link path

variable {typing : Typing} {references : References} {roots : List (String × Ty)} {scope : Scope}
  {typed : Typed} {query merged : Query} {index : Nat} {options : List String}
  {below? : Option Query}

section Reference

variable (tracked : typing.Tracked references roots index) (ordered : references.Ordered)
  (flat : FlatRoots typing.types roots options)
  (supplied : ∀ query ∈ ofReference typing.types references index below?,
    Supplies merged options query)

include tracked ordered flat

theorem Visible.isLink_iff (visible : Visible options (references.path index)) :
    typing.types.isLink (references.ty index) = true ↔
      typing.types.HoldsObjects (references.ty index) :=
  (flat_of_tracked tracked ordered (flat.visible visible)).isLink_iff

include supplied

theorem supplies_objects (visible : Visible options (references.path index))
    (objects : typing.types.HoldsObjects (references.ty index)) :
    Supplies merged options (.nest (references.path index) (below?.getD .empty)) := by
  have linked := (visible.isLink_iff tracked ordered flat).mpr objects
  refine supplied _ ?_
  rw [ofReference_eq tracked ordered (flat.visible visible)]
  simp [linked]

theorem supplies_data (visible : Visible options (references.path index))
    (data : ¬ typing.types.HoldsObjects (references.ty index)) :
    Supplies merged options (.pointing (references.path index)) := by
  have linked := (visible.isLink_iff tracked ordered flat).not.mpr data
  refine supplied _ ?_
  rw [ofReference_eq tracked ordered (flat.visible visible)]
  simp [linked]

theorem selects_objects (visible : Visible options (references.path index))
    (objects : typing.types.HoldsObjects (references.ty index)) :
    merged.Selects true (references.path index) := by
  refine supplies_objects tracked ordered flat supplied visible objects true _ ?_ visible
  exact Query.selects_nest_iff.mpr
    (Or.inl ⟨rfl, tracked.path_ne_nil ordered, List.prefix_refl _⟩)

theorem selects_data (visible : Visible options (references.path index))
    (data : ¬ typing.types.HoldsObjects (references.ty index)) :
    merged.Selects false (references.path index) := by
  refine supplies_data tracked ordered flat supplied visible data false _ ?_ visible
  obtain ⟨init, last, same⟩ :=
    (List.eq_nil_or_concat' _).resolve_left (tracked.path_ne_nil ordered)
  rw [same, Query.pointing_append]
  exact Query.selects_nest_iff.mpr (Or.inr ⟨[last], rfl, Query.selects_field_iff.mpr ⟨rfl, rfl⟩⟩)

theorem supplies_none :
    ∀ query ∈ ofReference typing.types references index none, Supplies merged options query := by
  intro query member link path selects visible
  have same := head_of_ofReference tracked ordered member selects
  have visibleIndex : Visible options (references.path index) :=
    fun name first => visible name (same ▸ first)
  have linked := visibleIndex.isLink_iff tracked ordered flat
  rw [ofReference_eq tracked ordered (flat.visible visibleIndex),
    List.mem_singleton] at member
  by_cases objects : typing.types.HoldsObjects (references.ty index)
  · have supplies := supplies_objects tracked ordered flat supplied visibleIndex objects
    refine supplies link path ?_ visible
    simp only [linked.mpr objects, if_true, Option.getD_none] at member
    subst member
    refine Query.selects_nest_iff.mpr (Or.inl ?_)
    rcases Query.selects_nest_iff.mp selects with before | ⟨rest, _, below⟩
    · exact before
    · exact (Query.not_selects_empty below).elim
  · have supplies := supplies_data tracked ordered flat supplied visibleIndex objects
    have unlinked := linked.not.mpr objects
    simp only [unlinked, Bool.false_eq_true, if_false] at member
    exact supplies link path (member ▸ selects) visible

theorem supplies_back {back : Nat} {name : String} {ty : Ty} {fields : List (String × Ty)}
    (entry : references.get? index = some ⟨some back, some name, ty⟩)
    (record : typing.typeOf references back = .record fields)
    (trackedBack : typing.Tracked references roots back) :
    ∀ query ∈ ofReference typing.types references back none, Supplies merged options query := by
  intro query member link path selects visible
  have same := head_of_ofReference trackedBack ordered member selects
  have visibleBack : Visible options (references.path back) :=
    fun name first => visible name (same ▸ first)
  have onward := References.path_of_back ordered entry rfl
  have visibleIndex : Visible options (references.path index) :=
    onward ▸ (visible_append_iff (trackedBack.path_ne_nil ordered)).mpr visibleBack
  have linked := (visibleBack.isLink_iff trackedBack ordered flat).mpr (.record record)
  rw [ofReference_eq trackedBack ordered (flat.visible visibleBack),
    List.mem_singleton] at member
  simp only [linked, if_true, Option.getD_none] at member
  subst member
  rcases Query.selects_nest_iff.mp selects with ⟨rfl, begun, more, split⟩ | ⟨rest, _, below⟩
  · have whole : merged.Selects true (references.path index) ∨
        merged.Selects false (references.path index) := by
      by_cases objects : typing.types.HoldsObjects (references.ty index)
      · exact Or.inl (selects_objects tracked ordered flat supplied visibleIndex objects)
      · exact Or.inr (selects_data tracked ordered flat supplied visibleIndex objects)
    rw [onward, ← split, List.append_assoc] at whole
    rcases whole with whole | whole
    · exact whole.before begun (by simp)
    · exact whole.before begun (by simp)
  · exact (Query.not_selects_empty below).elim

end Reference

/-- An expression with a reference of its own requires no more than the reference does. -/
theorem supplies_collect (wellTyped : typing.WellTyped references scope typed)
    (tracked : scope.Tracked typing references roots) (ordered : references.Ordered)
    (flat : FlatRoots typing.types roots options)
    (own : typed.reference? = some index)
    (supplied : ∀ query ∈ ofReference typing.types references index below?,
      Supplies merged options query) :
    ∀ query ∈ collect typing.types references typed, Supplies merged options query := by
  induction wellTyped generalizing index below? with
  | @symbol scope reference name found =>
      simp only [Typed.reference?, Option.some.injEq] at own
      subst own
      simp only [collect, ofTyped, Typed.reference?]
      exact supplies_none (tracked name reference found) ordered flat supplied
  | @get scope reference object name back fields ty ownObject record declared entry object ih =>
      simp only [Typed.reference?, Option.some.injEq] at own
      subst own
      have trackedBack := object.tracked tracked ownObject
      have trackedIndex := Typing.Tracked.field entry record declared trackedBack
      intro query member
      simp only [collect, ofTyped, Typed.reference?, List.mem_append] at member
      rcases member with member | member
      · exact supplies_none trackedIndex ordered flat supplied query member
      · exact ih tracked ownObject
          (supplies_back trackedIndex ordered flat supplied entry record trackedBack)
          query member
  | constant | each | ifElse | ifSome | call | list | map => simp [Typed.reference?] at own

end GraphQuery.Requirement
