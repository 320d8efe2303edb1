import GraphQuery.Proofs.Query.Merged

/-!
Going down in what was merged. Every level of it is what some queries come to that were given below
one place, so that what holds of merged queries holds on all levels.
-/

namespace GraphQuery

/-- A query, and what is in those of its fragments that apply wherever the query is made, at any
depth: the fragments without a type name and those on names that always match. -/
inductive Query.Expands (always : String → Prop) : Query → Query → Prop
  | self {query : Query} : Expands always query query
  | fragment {query other : Query} {fragment : Fragment} : fragment ∈ query.fragments →
      (∀ typeName ∈ fragment.typeName?, always typeName) → Expands always fragment.query other →
      Expands always query other

namespace MergePolicy

section Levels

variable {κ ε : Type}

abbrev linkedAt (policy : MergePolicy κ ε) (place : κ) (queries : List Query) (key : String) :
    List Query :=
  (Selection.under key (policy.selectionsAt place queries)).filterMap Selection.inner?

abbrev groupedAt (policy : MergePolicy κ ε) (place : κ) (queries : List Query)
    (typeName : String) : List Query :=
  Part.queriesOn typeName (policy.partsAt place queries)

/-- A level of what queries are merged into at a place: the place that the level is at, the queries
that are merged there, and the query that they are merged into. -/
inductive Level (policy : MergePolicy κ ε) (place : κ) (queries : List Query) (merged : Query) :
    κ → List Query → Query → Prop
  | top : Level policy place queries merged place queries merged
  | link {there : κ} {given : List Query} {level inner : Query} {head : Head} :
      Level policy place queries merged there given level →
      .link head inner ∈ level.selections →
      Level policy place queries merged (policy.below there head.name)
        (policy.linkedAt there given head.resultKey) inner
  | fragment {there : κ} {given : List Query} {level inner : Query} {typeName : String} :
      Level policy place queries merged there given level →
      .mk (some typeName) inner ∈ level.fragments →
      Level policy place queries merged (policy.inside there typeName)
        (policy.groupedAt there given typeName) inner

/-- What holds of all heads in the given queries holds of those in what is merged on each level. -/
theorem Level.every_given {policy : MergePolicy κ ε} {place there : κ} {queries given : List Query}
    {merged level : Query} {check : Head → Bool}
    (here : policy.Level place queries merged there given level)
    (passes : ∀ query ∈ queries, query.every check = true) :
    ∀ query ∈ given, query.every check = true := by
  induction here with
  | top => exact passes
  | link _ _ ih => exact fun inner member => every_of_inner ih member
  | fragment _ _ ih => exact fun inner member => every_of_queriesOn ih member

end Levels

section Joining

variable {κ : Type} {policy : MergePolicy κ MergeError} {place there : κ}
  {queries given : List Query} {merged level : Query}

namespace Level

variable (here : policy.Level place queries merged there given level)
  (joins : policy.combine = Slot.join) (done : policy.merge place queries = .ok merged)

include here joins done

theorem merge_eq : policy.merge there given = .ok level := by
  induction here with
  | top => exact done
  | link _ member ih => exact ((merges_of_merge joins ih).finishes member).inner
  | fragment _ member ih =>
      obtain ⟨typeName, same, _, doneInner, _⟩ := (merges_of_merge joins ih).exists_group member
      obtain rfl := Option.some.inj same
      exact doneInner

theorem merges : policy.Merges there given level :=
  merges_of_merge joins (here.merge_eq joins done)

theorem ordered_iff : level.ordered = true ↔ ∃ query ∈ given, query.ordered = true := by
  rw [(here.merges joins done).ordered, List.any_eq_true]

end Level

end Joining

end MergePolicy

end GraphQuery
