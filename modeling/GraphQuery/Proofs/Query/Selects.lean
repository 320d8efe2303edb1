import GraphQuery.Query.Basic
import Mathlib.Data.List.Nodup

/-!
The paths of labels that a query selects, and queries that are made of labels alone.
-/

namespace GraphQuery.Query

inductive Selects (link : Bool) : Query → List String → Prop
  | here {query selection} : selection ∈ query.selections → selection.isLink = link →
      Selects link query [selection.name]
  | under {query head inner path} : .link head inner ∈ query.selections →
      Selects link inner path → Selects link query (head.name :: path)

inductive Plain : Query → Prop
  | mk {selections} : (∀ selection ∈ selections, selection.head = .named selection.name) →
      (∀ head inner, .link head inner ∈ selections → Plain inner) → Plain (.ofSelections selections)

inductive Distinct : Query → Prop
  | mk {query} : (query.selections.map Selection.name).Nodup →
      (∀ head inner, .link head inner ∈ query.selections → Distinct inner) → Distinct query

def link? (query : Query) (name : String) : Option Query :=
  query.selections.findSome? fun
    | .link head inner => if head.name = name then some inner else none
    | .field _ => none

def branch (query : Query) : List String → Query
  | [] => query
  | name :: path => ((query.link? name).getD .empty).branch path

variable {link : Bool} {query : Query} {name : String} {path rest : List String}

theorem not_selects_nil : ¬ query.Selects link [] := by
  intro selects
  cases selects

theorem not_selects_of_isEmpty (nothing : query.isEmpty = true) : ¬ query.Selects link path := by
  simp only [isEmpty, Bool.and_eq_true, List.isEmpty_iff] at nothing
  intro selects
  cases selects with
  | here member _ | under member _ => simp [nothing.1] at member

theorem not_selects_empty : ¬ empty.Selects link path :=
  not_selects_of_isEmpty rfl

theorem selects_single_iff : query.Selects link [name] ↔
    ∃ selection ∈ query.selections, selection.isLink = link ∧ selection.name = name := by
  constructor
  · intro selects
    cases selects with
    | here member kind => exact ⟨_, member, kind, rfl⟩
    | under _ inner => exact (not_selects_nil inner).elim
  · rintro ⟨selection, member, kind, rfl⟩
    exact .here member kind

theorem selects_cons_iff (more : path ≠ []) : query.Selects link (name :: path) ↔
    ∃ head inner, .link head inner ∈ query.selections ∧ head.name = name ∧
      inner.Selects link path := by
  constructor
  · intro selects
    cases selects with
    | here => exact (more rfl).elim
    | under member inner => exact ⟨_, _, member, rfl, inner⟩
  · rintro ⟨head, inner, member, rfl, selects⟩
    exact .under member selects

theorem Selects.before (selects : query.Selects link (path ++ rest)) (some : path ≠ [])
    (more : rest ≠ []) : query.Selects true path := by
  induction path generalizing query with
  | nil => exact (some rfl).elim
  | cons name path ih =>
      obtain ⟨head, inner, member, rfl, below⟩ := (selects_cons_iff (by simp [more])).mp selects
      by_cases last : path = []
      · subst last
        exact selects_single_iff.mpr ⟨_, member, rfl, rfl⟩
      · exact .under member (ih below last)

namespace Distinct

theorem eq_of_name (distinct : Distinct query) {selection other : Selection}
    (member : selection ∈ query.selections) (memberToo : other ∈ query.selections)
    (same : selection.name = other.name) : selection = other := by
  cases distinct with
  | mk nodup _ => exact List.inj_on_of_nodup_map nodup member memberToo same

theorem inner (distinct : Distinct query) {head : Head} {inner : Query}
    (member : .link head inner ∈ query.selections) : Distinct inner := by
  cases distinct with
  | mk _ below => exact below head inner member

theorem link?_eq_some_iff (distinct : Distinct query) {inner : Query} :
    query.link? name = some inner ↔
      ∃ head, .link head inner ∈ query.selections ∧ head.name = name := by
  constructor
  · intro found
    obtain ⟨selection, member, made⟩ := List.exists_of_findSome?_eq_some found
    cases selection with
    | field head => simp at made
    | link head other =>
        simp only [Option.ite_none_right_eq_some, Option.some.injEq] at made
        exact ⟨head, made.2 ▸ member, made.1⟩
  · rintro ⟨head, member, rfl⟩
    cases found : query.link? head.name with
    | none =>
        have absent := List.findSome?_eq_none_iff.mp found _ member
        simp at absent
    | some other =>
        obtain ⟨selection, memberOther, made⟩ := List.exists_of_findSome?_eq_some found
        cases selection with
        | field head => simp at made
        | link headOther innerOther =>
            simp only [Option.ite_none_right_eq_some, Option.some.injEq] at made
            have equal := distinct.eq_of_name memberOther member made.1
            simp only [Selection.link.injEq] at equal
            rw [← made.2, equal.2]

end Distinct

theorem branch_empty (path : List String) : empty.branch path = empty := by
  induction path with
  | nil => rfl
  | cons name path ih => exact ih

theorem branch_append (query : Query) (path rest : List String) :
    query.branch (path ++ rest) = (query.branch path).branch rest := by
  induction path generalizing query with
  | nil => rfl
  | cons name path ih => exact ih _

theorem distinct_empty : Distinct empty :=
  .mk (by simp [empty, selections]) (by simp [empty, selections])

theorem plain_empty : Plain empty :=
  .mk (by simp) (by simp)

theorem Distinct.branch (distinct : Distinct query) (path : List String) :
    Distinct (query.branch path) := by
  induction path generalizing query with
  | nil => exact distinct
  | cons name path ih =>
      simp only [Query.branch]
      cases found : query.link? name with
      | none => exact ih distinct_empty
      | some inner =>
          obtain ⟨head, member, _⟩ := distinct.link?_eq_some_iff.mp found
          exact ih (distinct.inner member)

theorem selects_branch_iff (distinct : Distinct query) (more : rest ≠ []) :
    (query.branch path).Selects link rest ↔ query.Selects link (path ++ rest) := by
  induction path generalizing query with
  | nil => exact Iff.rfl
  | cons name path ih =>
      simp only [List.cons_append]
      rw [selects_cons_iff (by simp [more]), Query.branch]
      cases found : query.link? name with
      | none =>
          simp only [Option.getD_none, branch_empty]
          constructor
          · exact fun selects => (not_selects_empty selects).elim
          · rintro ⟨head, inner, member, same, _⟩
            have known := distinct.link?_eq_some_iff.mpr ⟨head, member, same⟩
            simp [found] at known
      | some inner =>
          obtain ⟨head, member, same⟩ := distinct.link?_eq_some_iff.mp found
          simp only [Option.getD_some]
          rw [ih (distinct.inner member)]
          constructor
          · exact fun selects => ⟨head, inner, member, same, selects⟩
          · rintro ⟨other, innerOther, memberOther, sameOther, selects⟩
            have equal := distinct.eq_of_name memberOther member (sameOther.trans same.symm)
            simp only [Selection.link.injEq] at equal
            exact equal.2 ▸ selects

namespace Plain

theorem inner (plain : Plain query) {head : Head} {inner : Query}
    (member : .link head inner ∈ query.selections) : Plain inner := by
  cases plain with
  | mk _ below => exact below head inner member

theorem head_eq (plain : Plain query) {selection : Selection}
    (member : selection ∈ query.selections) : selection.head = .named selection.name := by
  cases plain with
  | mk named _ => exact named selection member

theorem resultKey_eq (plain : Plain query) {selection : Selection}
    (member : selection ∈ query.selections) : selection.resultKey = selection.name := by
  simp [Selection.resultKey, plain.head_eq member, Head.resultKey, Head.named]

theorem fragments_eq (plain : Plain query) : query.fragments = [] := by
  cases plain with
  | mk _ _ => rfl

theorem ordered_eq (plain : Plain query) : query.ordered = false := by
  cases plain with
  | mk _ _ => rfl

theorem branch (plain : Plain query) (path : List String) : Plain (query.branch path) := by
  induction path generalizing query with
  | nil => exact plain
  | cons name path ih =>
      simp only [Query.branch]
      cases found : query.link? name with
      | none => exact ih plain_empty
      | some inner =>
          obtain ⟨selection, member, made⟩ := List.exists_of_findSome?_eq_some found
          cases selection with
          | field head => simp at made
          | link head other =>
              simp only [Option.ite_none_right_eq_some, Option.some.injEq] at made
              exact ih (plain.inner (made.2 ▸ member))

end Plain

end GraphQuery.Query
