import GraphQuery.Proofs.Requirement.Exact
import GraphQuery.Proofs.Requirement.Linked

/-!
Attributes of records that are taken out of sequences and optionals. Such an attribute is required
below its field exactly if the labels up to that field are linked, or if a template asks for it.
Labels are linked through an optional sequence of optionals and no further.
-/

namespace GraphQuery

namespace References

inductive Unwraps (references : References) : Nat → Nat → Prop
  | refl {index} : Unwraps references index index
  | step {index back field ty} : references.get? index = some ⟨some back, none, ty⟩ →
      Unwraps references back field → Unwraps references index field

theorem Unwraps.path_eq {references : References} {index field : Nat}
    (unwraps : references.Unwraps index field) (ordered : references.Ordered) :
    references.path index = references.path field := by
  induction unwraps with
  | refl => rfl
  | step entry _ ih => rw [path_of_back ordered entry rfl, ih, Option.toList_none, List.append_nil]

theorem Unwraps.refersBack {references : References} {index field : Nat}
    (unwraps : references.Unwraps index field) : references.RefersBack index field := by
  induction unwraps with
  | refl => exact .refl
  | step entry _ ih => exact .step entry rfl ih

end References

namespace Checked

variable {typing : Typing} {roots : List (String × Ty)} {expr : Expr} {checked : Checked}

def Asks (types : Registry) (roots : List (String × Ty)) (checked : Checked)
    (path : List String) : Prop :=
  ∃ index below rest, checked.root.Extends index below ∧ below.Has rest ∧
    Requirement.LinkedAlong types roots (checked.references.path index) ∧
    path = checked.references.path index ++ rest

theorem merges_requirements (accepted : typing.check roots expr = .ok checked) :
    Requirement.Merges (Requirement.collect typing.types checked.references checked.root)
      (checked.requirements typing.types) := by
  obtain ⟨scope, binds, wellTyped⟩ := Typing.check_sound accepted
  refine Requirement.mergeRequirements_merges fun query member => ?_
  exact (Requirement.requires_of_mem_collect wellTyped (.ofRoots binds) member).plain

/-- The paths that are required, however types are nested. -/
theorem requirements_has_iff (accepted : typing.check roots expr = .ok checked)
    {path : List String} : (checked.requirements typing.types).Has path ↔
      (∃ index, checked.root.Points index ∧
        Requirement.Fetched typing.types checked.references index path) ∨
        checked.Asks typing.types roots path := by
  obtain ⟨scope, binds, wellTyped⟩ := Typing.check_sound accepted
  have tracked : scope.Tracked typing checked.references roots := .ofRoots binds
  have ordered := binds.ordered
  rw [(merges_requirements accepted).has_iff]
  simp only [Requirement.mem_collect_iff]
  constructor
  · rintro ⟨query, ⟨index, below?, sources, made⟩, has⟩
    have trackedIndex := wellTyped.tracked_of_points tracked sources.points
    rcases (Requirement.has_ofReference_iff trackedIndex ordered).mp ⟨query, made, has⟩ with
      fetched | ⟨below, rest, rfl, linked, hasRest, rfl⟩
    · exact .inl ⟨index, sources.points, fetched⟩
    · have along := (Requirement.linked_iff trackedIndex ordered).mp linked
      exact .inr ⟨index, below, rest, sources.extends, hasRest, along, rfl⟩
  · rintro (⟨index, points, earlier, back?, label, ty, refers, entry, same, linked⟩ |
      ⟨index, below, rest, asks, hasRest, along, rfl⟩)
    · obtain ⟨outer, below?, sources, outward⟩ := wellTyped.sources_of_points tracked points
      have trackedOuter := wellTyped.tracked_of_points tracked sources.points
      obtain ⟨query, made, has⟩ := (Requirement.has_ofReference_iff trackedOuter ordered).mpr
        (.inl ⟨earlier, back?, label, ty, outward.trans refers, entry, same, linked⟩)
      exact ⟨query, ⟨outer, below?, sources, made⟩, has⟩
    · have sources := wellTyped.sources_of_extends tracked asks
      have trackedIndex := wellTyped.tracked_of_points tracked sources.points
      have linked := (Requirement.linked_iff trackedIndex ordered).mpr along
      obtain ⟨query, made, has⟩ := (Requirement.has_ofReference_iff trackedIndex ordered).mpr
        (.inr ⟨below, rest, rfl, linked, hasRest, rfl⟩)
      exact ⟨query, ⟨index, some below, sources, made⟩, has⟩

/--
An expression takes what a field holds out of its optionals and sequences, and gets an attribute
there. The field is required as a link with the attribute below it exactly if the labels up to the
field, itself included, are linked, or if a template asks for the attribute.
-/
theorem requirements_unwrapped_iff (accepted : typing.check roots expr = .ok checked)
    {reference inner field : Nat} {object : Typed} {name : String}
    (gets : checked.root.Contains (.get reference object name))
    (own : object.reference? = some inner) (unwraps : checked.references.Unwraps inner field) :
    ((checked.requirements typing.types).Selects true (checked.references.path field) ∧
        (checked.requirements typing.types).Has (checked.references.path field ++ [name])) ↔
      Requirement.LinkedAlong typing.types roots (checked.references.path field) ∨
        checked.Asks typing.types roots (checked.references.path field ++ [name]) := by
  obtain ⟨scope, binds, wellTyped⟩ := Typing.check_sound accepted
  have tracked : scope.Tracked typing checked.references roots := .ofRoots binds
  have ordered := binds.ordered
  have points : checked.root.Points reference := ⟨_, gets, rfl⟩
  obtain ⟨_, trackedInner, wellTypedGet⟩ := wellTyped.ofContained tracked gets
  cases wellTypedGet with
  | @get _ _ _ _ back fields ty ownToo _ _ entry wellTypedObject =>
    obtain rfl := Option.some.inj (own.symm.trans ownToo)
    have ends : checked.references.path reference =
        checked.references.path field ++ [name] := by
      rw [References.path_of_back ordered entry rfl, unwraps.path_eq ordered, Option.toList_some]
    have begun : checked.references.path field ≠ [] :=
      ((wellTypedObject.tracked trackedInner own).of_refersBack unwraps.refersBack).path_ne_nil
        ordered
    -- a path goes on below links only
    rw [and_iff_right_of_imp fun ⟨_, selects⟩ => selects.before begun (by simp),
      requirements_has_iff accepted]
    refine or_congr_left ⟨?_, fun along => ⟨reference, points, ?_⟩⟩
    · rintro ⟨index, pointsToo, fetched⟩
      exact ((Requirement.fetched_append_iff (wellTyped.tracked_of_points tracked pointsToo)
        ordered).mp fetched).1
    · exact (Requirement.fetched_append_iff (wellTyped.tracked_of_points tracked points)
        ordered).mpr ⟨along, reference, _, _, _, .refl, entry, ends⟩

end Checked

def Expr.bylines : Expr :=
  .each "author" (.get (.symbol "this") "authors") (.get (.symbol "author") "name")

def Checked.bylines : Checked :=
  ⟨.each ⟨"author", 2⟩ (.get 1 (.symbol 0 "this") "authors")
      (.get 3 (.symbol 2 "author") "name"),
    ⟨#[⟨none, some "this", .named .type "Book"⟩,
      ⟨some 0, some "authors", .sequence (.named .type "Author")⟩,
      ⟨some 1, none, .named .type "Author"⟩,
      ⟨some 2, some "name", .string⟩]⟩⟩

theorem Checked.requirements_unwrapped_bylines :
    Typing.check ⟨.catalog, []⟩ [("this", .named .type "Book")] .bylines = .ok .bylines ∧
    Checked.bylines.root.Contains (.get 3 (.symbol 2 "author") "name") ∧
    Checked.bylines.references.Unwraps 2 1 ∧
    (Checked.bylines.requirements .catalog).Selects true ["this", "authors"] ∧
    (Checked.bylines.requirements .catalog).Has ["this", "authors", "name"] := by
  have accepted : Typing.check ⟨.catalog, []⟩ [("this", .named .type "Book")] .bylines =
    .ok .bylines := rfl
  have gets : Checked.bylines.root.Contains (.get 3 (.symbol 2 "author") "name") :=
    .step (.tail _ (.head _)) .refl
  have unwraps : Checked.bylines.references.Unwraps 2 1 := .step rfl .refl
  have book : Typing.Leads .catalog [("this", .named .type "Book")] ([] ++ ["this"])
    (.named .type "Book") := ⟨_, _, _, rfl, rfl, .nil⟩
  have authors : Typing.Leads .catalog [("this", .named .type "Book")] (["this"] ++ ["authors"])
    (.sequence (.named .type "Author")) := book.extend (.cons (.record rfl) rfl .nil)
  have along : Requirement.LinkedAlong .catalog [("this", .named .type "Book")]
      (["this"] ++ ["authors"]) := by
    rw [Requirement.linkedAlong_append_iff authors]
    refine ⟨.inl (.inr ⟨_, rfl, .inl (.inl ⟨_, rfl⟩)⟩), ?_⟩
    exact (Requirement.linkedAlong_append_iff book).mpr
      ⟨.inl (.inl (.inl (.inl ⟨_, rfl⟩))), Requirement.linkedAlong_nil⟩
  obtain ⟨selects, has⟩ :=
    (Checked.requirements_unwrapped_iff accepted gets rfl unwraps).mpr (.inl along)
  exact ⟨accepted, gets, unwraps, selects, has⟩

def Ty.grid : Ty := .sequence (.sequence (.record [("value", .integer)]))

def Expr.cells : Expr :=
  .each "row" (.get (.symbol "this") "grid")
    (.each "cell" (.symbol "row") (.get (.symbol "cell") "value"))

def Checked.cells : Checked :=
  ⟨.each ⟨"row", 2⟩ (.get 1 (.symbol 0 "this") "grid")
      (.each ⟨"cell", 3⟩ (.symbol 2 "row") (.get 4 (.symbol 3 "cell") "value")),
    ⟨#[⟨none, some "this", .record [("grid", .grid)]⟩, ⟨some 0, some "grid", .grid⟩,
      ⟨some 1, none, .sequence (.record [("value", .integer)])⟩,
      ⟨some 2, none, .record [("value", .integer)]⟩, ⟨some 3, some "value", .integer⟩]⟩⟩

/-- A sequence of sequences is not linked: the values that are used of a grid are not required,
while a template for the same grid asks for them. -/
theorem Checked.requirements_lose_cells :
    Typing.check ⟨.empty, []⟩ [("this", .record [("grid", .grid)])] .cells = .ok .cells ∧
    Checked.cells.root.Contains (.get 4 (.symbol 3 "cell") "value") ∧
    Checked.cells.references.Unwraps 3 1 ∧
    Ty.grid.template? = some (.ofSelections [.field (.named "value")]) ∧
    Checked.cells.requirements .empty =
      .ofSelections [.link (.named "this") (.ofSelections [.field (.named "grid")])] ∧
    ¬ (Checked.cells.requirements .empty).Selects true ["this", "grid"] ∧
    ¬ (Checked.cells.requirements .empty).Has ["this", "grid", "value"] := by
  have requires : Checked.cells.requirements .empty =
    .ofSelections [.link (.named "this") (.ofSelections [.field (.named "grid")])] := rfl
  have missed : ¬ (Checked.cells.requirements .empty).Has ["this", "grid", "value"] := by
    simp [requires, Query.has_link_iff, Query.has_field_iff]
  have unlinked : ¬ (Checked.cells.requirements .empty).Selects true ["this", "grid"] := by
    simp [requires, Query.selects_link_iff, Query.selects_field_iff]
  exact ⟨rfl, .step (.tail _ (.head _)) (.step (.tail _ (.head _)) .refl),
    .step rfl (.step rfl .refl), rfl, requires, unlinked, missed⟩

end GraphQuery
