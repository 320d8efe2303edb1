import GraphQuery.Proofs.Query.Alike
import GraphQuery.Proofs.Query.Merging

/-!
What merging leaves. The parts of one query that is left by merging are its own selections, what is
taken out of its fragments and what remains in these.
-/

namespace GraphQuery

namespace MergePolicy

section Levels

variable {κ ε : Type} {policy : MergePolicy κ ε} {place : κ} {query inner : Query}
  {typeName : String}

/-- One level of a query as merging leaves it at a place: each key and each type name occurs once,
and the fragments that are left are on names that not all objects there match, and not empty. -/
structure MergedLevel (policy : MergePolicy κ ε) (place : κ) (query : Query) : Prop where
  keys : (query.selections.map Selection.resultKey).Nodup
  typeNames : (query.fragments.map Fragment.typeName?).Nodup
  conditional : ∀ inner, .mk none inner ∉ query.fragments
  filled : ∀ typeName inner, .mk (some typeName) inner ∈ query.fragments → inner.isEmpty = false
  not_expanded : ∀ typeName inner, .mk (some typeName) inner ∈ query.fragments →
    policy.treatment place typeName ≠ .expand

inductive Merged (policy : MergePolicy κ ε) : κ → Query → Prop
  | mk {place : κ} {query : Query} : policy.MergedLevel place query →
      (∀ typeName inner, .mk (some typeName) inner ∈ query.fragments →
        Merged policy (policy.inside place typeName) inner) →
      (∀ head inner, .link head inner ∈ query.selections →
        Merged policy (policy.below place head.name) inner) → Merged policy place query

theorem partsAt_single (policy : MergePolicy κ ε) (place : κ) (query : Query) :
    policy.partsAt place [query] = policy.parts place query := by
  rw [partsAt, List.flatMap_singleton]

namespace MergedLevel

variable (level : policy.MergedLevel place query)

include level

theorem exists_typeName {fragment : Fragment} (member : fragment ∈ query.fragments) :
    ∃ typeName inner, fragment = .mk (some typeName) inner := by
  obtain ⟨_ | typeName, inner⟩ := fragment
  · exact (level.conditional inner member).elim
  · exact ⟨typeName, inner, rfl⟩

theorem specific (shared : List String) :
    policy.MergedLevel place (specific shared query) where
  keys := level.keys.sublist (List.filter_sublist.map _)
  typeNames := level.typeNames
  conditional := level.conditional
  filled := level.filled
  not_expanded := level.not_expanded

theorem partsOfFragment_eq (member : .mk (some typeName) inner ∈ query.fragments) :
    policy.partsOfFragment place (.mk (some typeName) inner) =
      (policy.taken place typeName inner).map .own ++
        [.group typeName (policy.remaining place typeName inner)] :=
  MergePolicy.partsOfFragment_eq (level.not_expanded _ _ member)

theorem mem_parts_iff {part : Part} : part ∈ policy.parts place query ↔
    (∃ selection ∈ query.selections, .own selection = part) ∨
      ∃ typeName inner, .mk (some typeName) inner ∈ query.fragments ∧
        ((∃ selection ∈ policy.taken place typeName inner, .own selection = part) ∨
          .group typeName (policy.remaining place typeName inner) = part) := by
  rw [parts_eq, List.mem_append, List.mem_map, List.mem_flatMap]
  refine or_congr_right ⟨?_, ?_⟩
  · rintro ⟨fragment, member, inside⟩
    obtain ⟨typeName, inner, rfl⟩ := level.exists_typeName member
    rw [level.partsOfFragment_eq member, List.mem_append, List.mem_map, List.mem_singleton] at inside
    exact ⟨typeName, inner, member, inside.imp_right Eq.symm⟩
  · rintro ⟨typeName, inner, member, inside⟩
    refine ⟨_, member, ?_⟩
    rw [level.partsOfFragment_eq member, List.mem_append, List.mem_map, List.mem_singleton]
    exact inside.imp_right Eq.symm

theorem typeNames_parts : (policy.parts place query).filterMap Part.typeName? =
    query.fragments.filterMap Fragment.typeName? := by
  have each : ∀ fragment ∈ query.fragments,
      (policy.partsOfFragment place fragment).filterMap Part.typeName? =
        fragment.typeName?.toList := by
    intro fragment member
    obtain ⟨typeName, inner, rfl⟩ := level.exists_typeName member
    rw [level.partsOfFragment_eq member, List.filterMap_append, Part.typeNames_map_own]
    rfl
  rw [parts_eq, List.filterMap_append, Part.typeNames_map_own, List.nil_append,
    List.filterMap_flatMap, List.filterMap_eq_flatMap_toList]
  exact List.flatMap_congr each

theorem nodup_typeNames_parts :
    ((policy.partsAt place [query]).filterMap Part.typeName?).Nodup := by
  have split : query.fragments.filterMap Fragment.typeName? =
      (query.fragments.map Fragment.typeName?).filterMap id := by
    rw [List.filterMap_map]
    rfl
  rw [partsAt_single, level.typeNames_parts, split]
  exact level.typeNames.filterMap fun typeName? other name found same =>
    (Option.mem_def.mp found).trans (Option.mem_def.mp same).symm

theorem keys_groups : (Part.groups (policy.partsAt place [query])).keys.map some =
    query.fragments.map Fragment.typeName? := by
  rw [Part.keys_groups, eraseDups_of_nodup level.nodup_typeNames_parts, partsAt_single,
    level.typeNames_parts, List.map_filterMap, List.filterMap_eq_map_iff_forall_eq_some]
  intro fragment member
  obtain ⟨typeName, inner, rfl⟩ := level.exists_typeName member
  rfl

theorem queriesOn_eq (member : .mk (some typeName) inner ∈ query.fragments) :
    Part.queriesOn typeName (policy.partsAt place [query]) =
      [policy.remaining place typeName inner] := by
  refine Part.queriesOn_of_nodup level.nodup_typeNames_parts ?_
  rw [partsAt_single, level.mem_parts_iff]
  exact .inr ⟨typeName, inner, member, .inr rfl⟩

theorem exists_of_queriesOn (known : Part.queriesOn typeName (policy.partsAt place [query]) ≠ []) :
    ∃ inner, .mk (some typeName) inner ∈ query.fragments := by
  obtain ⟨left, member⟩ := List.exists_mem_of_ne_nil _ known
  rw [Part.mem_queriesOn_iff, partsAt_single, level.mem_parts_iff] at member
  rcases member with ⟨_, _, same⟩ | ⟨typeName, inner, member, ⟨_, _, same⟩ | same⟩
  · cases same
  · cases same
  · cases same
    exact ⟨inner, member⟩

theorem selectionsAt_eq (nothing : ∀ typeName inner, .mk (some typeName) inner ∈ query.fragments →
    policy.taken place typeName inner = []) :
    policy.selectionsAt place [query] = query.selections := by
  have noMore : Part.selections
      (query.fragments.flatMap (policy.partsOfFragment place)) = [] := by
    refine List.filterMap_eq_nil_iff.mpr fun part member => ?_
    obtain ⟨fragment, given, inside⟩ := List.mem_flatMap.mp member
    obtain ⟨typeName, inner, rfl⟩ := level.exists_typeName given
    rw [level.partsOfFragment_eq given, nothing _ _ given, List.map_nil,
      List.nil_append, List.mem_singleton] at inside
    rw [inside]
    rfl
  rw [selectionsAt, partsAt_single, parts_eq, Part.selections_append, Part.selections_map_own,
    noMore, List.append_nil]

end MergedLevel

namespace Merged

variable (merged : policy.Merged place query)

include merged

theorem level : policy.MergedLevel place query := by
  cases merged
  assumption

theorem ofFragment (member : .mk (some typeName) inner ∈ query.fragments) :
    policy.Merged (policy.inside place typeName) inner := by
  cases merged with
  | mk _ inside _ => exact inside _ _ member

theorem ofLink {head : Head} (member : .link head inner ∈ query.selections) :
    policy.Merged (policy.below place head.name) inner := by
  cases merged with
  | mk _ _ below => exact below _ _ member

end Merged

end Levels

section Joining

variable {κ : Type} {policy : MergePolicy κ MergeError} {place : κ} {queries : List Query}
  {merged : Query}

theorem Merges.exists_group (merges : policy.Merges place queries merged)
    {typeName? : Option String} {inner : Query} (member : .mk typeName? inner ∈ merged.fragments) :
    ∃ typeName, typeName? = some typeName ∧ inner.isEmpty = false ∧
      policy.merge (policy.inside place typeName)
        (Part.queriesOn typeName (policy.partsAt place queries)) = .ok inner ∧
      Part.queriesOn typeName (policy.partsAt place queries) ≠ [] := by
  obtain ⟨typeName, known, finishes⟩ := merges.of_fragment member
  obtain ⟨fragments, _, kept⟩ := merges.fragments
  rw [kept, List.mem_filter] at member
  cases finishes with
  | mk done => exact ⟨typeName, rfl, by simpa [Fragment.query] using member.2, done, known⟩

theorem Merges.level (merges : policy.Merges place queries merged) :
    policy.MergedLevel place merged where
  keys := merges.nodup
  typeNames := by
    obtain ⟨fragments, aligned, kept⟩ := merges.fragments
    rw [kept]
    refine List.Nodup.sublist (List.filter_sublist.map _) ?_
    rw [typeNames_of_finishesGroup aligned]
    exact (Part.nodup_keys_groups _).map fun _ _ => Option.some.inj
  conditional inner member := by
    obtain ⟨typeName, same, _⟩ := merges.exists_group member
    cases same
  filled typeName inner member := by
    obtain ⟨_, _, filled, _⟩ := merges.exists_group member
    exact filled
  not_expanded typeName inner member := by
    obtain ⟨name, same, _, _, known⟩ := merges.exists_group member
    obtain rfl := Option.some.inj same
    obtain ⟨first, inside⟩ := List.exists_mem_of_ne_nil _ known
    obtain ⟨query, _, part⟩ := List.mem_flatMap.mp (Part.mem_queriesOn_iff.mp inside)
    exact not_expanded_of_group part

theorem Merges.keys_eraseDups (merges : policy.Merges place queries merged) :
    merged.selections.map Selection.resultKey =
      ((policy.selectionsAt place queries).map Selection.resultKey).eraseDups :=
  merges.keys_eq.trans (Slot.keys_gather _)

theorem merged_of_merge (joins : policy.combine = Slot.join)
    (done : policy.merge place queries = .ok merged) : policy.Merged place merged := by
  induction queries using Query.inductAll generalizing place merged with
  | step queries ih =>
      have merges := merges_of_merge joins done
      refine .mk merges.level (fun typeName inner member => ?_) fun head inner member => ?_
      · obtain ⟨name, same, _, doneInner, known⟩ := merges.exists_group member
        obtain rfl := Option.some.inj same
        exact ih _ (heightOfAll_lt_of_queriesOn known) doneInner
      · obtain ⟨inners, doneInner, lower, _⟩ := merges.of_link member
        exact ih _ lower doneInner

theorem isComparable_of_merge (joins : policy.combine = Slot.join)
    (comparable : ∀ query ∈ queries, query.isComparable = true)
    (done : policy.merge place queries = .ok merged) : merged.isComparable = true := by
  refine every_of_merge joins (fun first rest each => ?_) comparable done
  simp only [Head.isComparable, Head.isKeyed, Head.isNaNFree, Bool.and_eq_true,
    List.all_eq_true] at each ⊢
  constructor
  · intro value member
    obtain ⟨selection, inside, given⟩ := Head.mem_values_joinedTo member
    exact (each selection inside).1 value given
  · intro value member
    obtain ⟨selection, inside, given⟩ := Head.mem_values_joinedTo member
    exact (each selection inside).2 value given

/-! What queries without fragments are merged into -/

section Plain

variable (plain : ∀ query ∈ queries, query.fragments = [])

include plain

theorem partsAt_of_plain :
    policy.partsAt place queries = (queries.flatMap Query.selections).map .own := by
  rw [partsAt, List.map_flatMap]
  refine List.flatMap_congr fun query member => ?_
  rw [parts_eq, plain query member, List.flatMap_nil, List.append_nil]

variable (merges : policy.Merges place queries merged)

include merges

theorem Merges.fragments_of_plain : merged.fragments = [] := by
  refine List.eq_nil_iff_forall_not_mem.mpr fun fragment member => ?_
  obtain ⟨typeName, known, _⟩ := merges.of_fragment member
  rw [partsAt_of_plain plain, Part.queriesOn_map_own] at known
  exact known rfl

theorem Merges.keys_of_plain :
    merged.selections.map Selection.resultKey =
      ((queries.flatMap Query.selections).map Selection.resultKey).eraseDups := by
  rw [merges.keys_eraseDups, selectionsAt, partsAt_of_plain plain, Part.selections_map_own]

theorem Merges.isEmpty_of_plain :
    merged.isEmpty = (queries.flatMap Query.selections).isEmpty := by
  have same := congrArg List.isEmpty (merges.keys_of_plain plain)
  rw [List.isEmpty_map] at same
  rw [Query.isEmpty, merges.fragments_of_plain plain, List.isEmpty_nil, Bool.and_true, same]
  cases queries.flatMap Query.selections with
  | nil => rfl
  | cons first rest => rw [List.map_cons, List.eraseDups_cons]; rfl

end Plain

end Joining

end MergePolicy

end GraphQuery
