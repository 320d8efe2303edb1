import GraphQuery.Batch
import GraphQuery.Proofs.Query.Project

/-!
Queries without some of their outermost selections: requirements without options, and requirements
of the graph root without those of the object.
-/

namespace GraphQuery

namespace Query

def restrict (query : Query) (keep : Selection → Bool) : Query :=
  .ofSelections (query.selections.filter keep)

variable {query : Query} {keep : Selection → Bool} {link : Bool} {name : String}
  {path : List String}

theorem Plain.restrict (plain : query.Plain) : (query.restrict keep).Plain := by
  refine .mk ?_ ?_
  · exact fun selection member => plain.head_eq (List.mem_of_mem_filter member)
  · exact fun head inner member => plain.inner (List.mem_of_mem_filter member)

theorem Distinct.restrict (distinct : query.Distinct) : (query.restrict keep).Distinct := by
  refine .mk ?_ ?_
  · cases distinct with
    | mk nodup _ => exact (List.filter_sublist.map Selection.name).nodup nodup
  · exact fun head inner member => distinct.inner (List.mem_of_mem_filter member)

theorem selects_of_restrict (selects : (query.restrict keep).Selects link path) :
    query.Selects link path := by
  cases selects with
  | here member kind => exact .here (List.mem_of_mem_filter member) kind
  | under member inner => exact .under (List.mem_of_mem_filter member) inner

theorem selects_restrict_iff
    (kept : ∀ selection, selection.name = name → keep selection = true) :
    (query.restrict keep).Selects link (name :: path) ↔ query.Selects link (name :: path) := by
  constructor
  · exact selects_of_restrict
  · intro selects
    generalize whole : name :: path = sought at selects
    cases selects with
    | here member kind =>
        simp only [List.cons.injEq] at whole
        exact .here (List.mem_filter.mpr ⟨member, kept _ whole.1.symm⟩) kind
    | @under _ head inner _ member selects =>
        simp only [List.cons.injEq] at whole
        have keeps := kept (.link head inner) whole.1.symm
        exact .under (List.mem_filter.mpr ⟨member, keeps⟩) selects

theorem not_selects_restrict
    (dropped : ∀ selection, selection.name = name → keep selection = false) :
    ¬ (query.restrict keep).Selects link (name :: path) := by
  intro selects
  generalize whole : name :: path = sought at selects
  cases selects with
  | here member kind =>
      simp only [List.cons.injEq] at whole
      have gone := dropped _ whole.1.symm
      have kept := (List.mem_filter.mp member).2
      simp [gone] at kept
  | @under _ head inner _ member selects =>
      simp only [List.cons.injEq] at whole
      have gone := dropped (.link head inner) whole.1.symm
      have kept := (List.mem_filter.mp member).2
      simp [gone] at kept

theorem branch_restrict (distinct : query.Distinct)
    (kept : ∀ selection, selection.name = name → keep selection = true) :
    (query.restrict keep).branch [name] = query.branch [name] := by
  have same : (query.restrict keep).link? name = query.link? name := by
    ext inner
    rw [distinct.restrict.link?_eq_some_iff, distinct.link?_eq_some_iff]
    constructor
    · rintro ⟨head, member, named⟩
      exact ⟨head, List.mem_of_mem_filter member, named⟩
    · rintro ⟨head, member, named⟩
      exact ⟨head, List.mem_filter.mpr ⟨member, kept _ named⟩, named⟩
  simp only [branch, same]

/-- Without options, the paths that do not start from an option are left. -/
theorem selects_withoutOptions_iff {options : List String} :
    (query.withoutOptions options).Selects link path ↔
      query.Selects link path ∧ ∀ name, path.head? = some name → name ∉ options := by
  have restricted : query.withoutOptions options =
      query.restrict fun selection => !options.contains selection.name := rfl
  rw [restricted]
  cases path with
  | nil => simp [not_selects_nil]
  | cons name path =>
      by_cases option : name ∈ options
      · have dropped : ∀ selection : Selection, selection.name = name →
            (!options.contains selection.name) = false := by
          rintro selection rfl
          simpa using option
        constructor
        · exact fun selects => (not_selects_restrict dropped selects).elim
        · rintro ⟨_, visible⟩
          exact (visible name rfl option).elim
      · have kept : ∀ selection : Selection, selection.name = name →
            (!options.contains selection.name) = true := by
          rintro selection rfl
          simpa using option
        rw [selects_restrict_iff kept]
        simp [option]

end Query

namespace Plan

variable {requirements : Query} {name : String}

theorem thisBranch_eq (requirements : Query) :
    thisBranch requirements = requirements.branch [thisName] := rfl

theorem keeps_other (different : name ≠ thisName) (selection : Selection)
    (named : selection.name = name) :
    (!(selection.isLink && selection.name == thisName)) = true := by
  simp [named, different]

theorem selects_otherBranches_iff {link : Bool} {path : List String}
    (different : name ≠ thisName) :
    (otherBranches requirements).Selects link (name :: path) ↔
      requirements.Selects link (name :: path) :=
  Query.selects_restrict_iff (keeps_other different)

theorem get?_project_otherBranches_link (plain : requirements.Plain)
    (distinct : requirements.Distinct) (different : name ≠ thisName)
    (selects : requirements.Selects true [name]) (root : Value) :
    ((otherBranches requirements).project root).get? name =
      (root.get? name).map (requirements.branch [name]).project := by
  rw [← Query.branch_restrict distinct (keeps_other different)]
  exact Query.get?_project_link plain.restrict distinct.restrict
    ((selects_otherBranches_iff different).mpr selects) root

theorem get?_project_otherBranches_field (plain : requirements.Plain)
    (distinct : requirements.Distinct) (different : name ≠ thisName)
    (selects : requirements.Selects false [name]) (root : Value) :
    ((otherBranches requirements).project root).get? name = root.get? name :=
  Query.get?_project_field plain.restrict distinct.restrict
    ((selects_otherBranches_iff different).mpr selects) root

end Plan

end GraphQuery
