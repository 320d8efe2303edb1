import GraphQuery.Proofs.Graph.Canonical
import GraphQuery.Proofs.Query.Descent

/-!
Hoisting under an interface, out of fragments on the nodes that implement it. What the interface
declares comes to its own level, and what is left of the fragments is merged by types.
-/

namespace GraphQuery

theorem Entries.contains_keys {α : Type} (entries : Entries α) (key : String) :
    entries.keys.contains key = entries.contains key := by
  rw [Bool.eq_iff_iff, List.contains_iff_mem, mem_keys_iff, contains]

namespace Query

def inFragments (query : Query) : List Selection :=
  query.fragments.flatMap fun fragment => fragment.query.selections

def fragmentsOn (typeName : String) (query : Query) : List Fragment :=
  query.fragments.filter fun fragment => fragment.typeName? == some typeName

def inFragmentsOn (typeName : String) (query : Query) : List Selection :=
  (query.fragmentsOn typeName).flatMap fun fragment => fragment.query.selections

end Query

namespace MergePolicy

section Parts

variable {κ ε : Type}

def Shares (policy : MergePolicy κ ε) (place : κ) (shared : List String) (query : Query) : Prop :=
  ∀ fragment ∈ query.fragments, ∃ typeName selections ordered,
    fragment = .mk (some typeName) (.mk selections [] ordered) ∧
    policy.treatment place typeName = .hoist shared

variable {policy : MergePolicy κ ε} {place : κ} {shared : List String} {queries : List Query}

theorem partsOfFragment_of_hoist {typeName : String}
    (treated : policy.treatment place typeName = .hoist shared) (query : Query) :
    policy.partsOfFragment place (.mk (some typeName) query) =
      (query.selections.filter fun selection => shared.contains selection.name).map .own ++
        [.group typeName (specific shared query)] := by
  rw [partsOfFragment_eq (by simp [treated]), taken, remaining, treated]

variable (shares : ∀ query ∈ queries, policy.Shares place shared query)

include shares

/-- What is read off the parts is read off the selections of the queries and off each fragment. -/
theorem filterMap_partsAt_of_shares {β : Type} (read : Part → Option β)
    (ofFragment : Fragment → List β)
    (each : ∀ typeName query, ((query.selections.filter fun selection =>
        shared.contains selection.name).map Part.own ++
          [.group typeName (specific shared query)]).filterMap read =
      ofFragment (.mk (some typeName) query)) :
    (policy.partsAt place queries).filterMap read = queries.flatMap fun query =>
      (query.selections.map Part.own).filterMap read ++ query.fragments.flatMap ofFragment := by
  rw [partsAt, List.filterMap_flatMap]
  refine List.flatMap_congr fun query member => ?_
  rw [parts_eq, List.filterMap_append, List.filterMap_flatMap]
  refine congrArg (_ ++ ·) (List.flatMap_congr fun fragment inside => ?_)
  obtain ⟨typeName, selections, ordered, rfl, treated⟩ := shares query member fragment inside
  rw [partsOfFragment_of_hoist treated, each]

theorem selectionsAt_of_shares : policy.selectionsAt place queries =
    queries.flatMap fun query => query.selections ++
      query.inFragments.filter fun selection => shared.contains selection.name := by
  rw [selectionsAt, Part.selections, filterMap_partsAt_of_shares shares _ fun fragment =>
    fragment.query.selections.filter fun selection => shared.contains selection.name]
  · refine List.flatMap_congr fun query _ => ?_
    rw [← Part.selections, Part.selections_map_own, Query.inFragments, List.filter_flatMap]
  · intro typeName query
    rw [← Part.selections, Part.selections_append_group, Part.selections_map_own]
    rfl

theorem typeNames_of_shares : (policy.partsAt place queries).filterMap Part.typeName? =
    queries.flatMap fun query => query.fragments.filterMap Fragment.typeName? := by
  rw [filterMap_partsAt_of_shares shares _ fun fragment => fragment.typeName?.toList]
  · refine List.flatMap_congr fun query _ => ?_
    rw [Part.typeNames_map_own, List.nil_append, List.filterMap_eq_flatMap_toList]
  · intro typeName query
    rw [List.filterMap_append, Part.typeNames_map_own]
    rfl

theorem groupedAt_of_shares (typeName : String) : policy.groupedAt place queries typeName =
    queries.flatMap fun query => (query.fragmentsOn typeName).map fun fragment =>
      specific shared fragment.query := by
  rw [groupedAt, Part.queriesOn, filterMap_partsAt_of_shares shares _ fun fragment =>
    if fragment.typeName? = some typeName then [specific shared fragment.query] else []]
  · refine List.flatMap_congr fun query _ => ?_
    rw [← Part.queriesOn, Part.queriesOn_map_own, List.nil_append, Query.fragmentsOn,
      ← List.filterMap_eq_map, List.filterMap_filter, List.filterMap_eq_flatMap_toList]
    refine List.flatMap_congr fun fragment _ => ?_
    by_cases same : fragment.typeName? = some typeName <;> simp [same]
  · intro other query
    rw [← Part.queriesOn, Part.queriesOn_append, Part.queriesOn_map_own, List.nil_append,
      Part.queriesOn_cons_group]
    by_cases same : other = typeName <;>
      simp [same, Fragment.typeName?, Fragment.query, Part.queriesOn]

theorem plain_of_shares {typeName : String} {query : Query}
    (member : query ∈ policy.groupedAt place queries typeName) : query.fragments = [] := by
  rw [groupedAt_of_shares shares, List.mem_flatMap] at member
  obtain ⟨outer, given, member⟩ := member
  obtain ⟨fragment, inside, rfl⟩ := List.mem_map.mp member
  obtain ⟨_, _, _, rfl, _⟩ := shares outer given fragment (List.mem_filter.mp inside).1
  rfl

theorem selections_groupedAt_of_shares (typeName : String) :
    (policy.groupedAt place queries typeName).flatMap Query.selections =
      (queries.flatMap (Query.inFragmentsOn typeName)).filter fun selection =>
        !shared.contains selection.name := by
  rw [groupedAt_of_shares shares, List.flatMap_assoc, List.filter_flatMap]
  refine List.flatMap_congr fun query member => ?_
  rw [List.flatMap_map, Query.inFragmentsOn, List.filter_flatMap]
  rfl

end Parts

section Joining

variable {κ : Type} {policy : MergePolicy κ MergeError} {place : κ} {queries : List Query}
  {merged : Query}

theorem Merges.survivors_of_shares {shared : List String}
    (merges : policy.Merges place queries merged)
    (shares : ∀ query ∈ queries, policy.Shares place shared query)
    (joins : policy.combine = Slot.join) :
    merged.fragments.map Fragment.typeName? =
      ((queries.flatMap fun query => query.fragments.filterMap Fragment.typeName?).eraseDups.filter
        fun typeName => (queries.flatMap (Query.inFragmentsOn typeName)).any fun selection =>
          !shared.contains selection.name).map some := by
  obtain ⟨fragments, aligned, kept⟩ := merges.fragments
  rw [kept, ← typeNames_of_shares shares, ← Part.keys_groups]
  refine typeNames_of_finishesGroup (List.rel_filter (fun typeName fragment finishes => ?_) aligned)
  cases finishes with
  | mk done =>
      have inner := merges_of_merge joins done
      have left := selections_groupedAt_of_shares shares typeName
      simp only [Fragment.query, inner.isEmpty_of_plain fun _ => plain_of_shares shares, left,
        List.any_eq_true, Bool.not_eq_true', List.isEmpty_eq_false_iff_exists_mem, List.mem_filter]

end Joining

end MergePolicy

namespace Graph

/-- All fragments of a query hold selections only, and are on nodes that implement an interface of
another name. -/
def OnImplementors (graph : Graph) (interface : String) (query : Query) : Prop :=
  ∀ fragment ∈ query.fragments, ∃ typeName selections ordered node,
    fragment = .mk (some typeName) (.mk selections [] ordered) ∧ typeName ≠ interface ∧
    graph.node? typeName = some node ∧ interface ∈ node.implements

variable {graph : Graph} {options : MergeOptions} {interface : String} {shared : Entries FieldDef}
  {queries : List Query} {merged : Query}

theorem shares_of_onImplementors (declared : graph.interface? interface = some shared)
    (hoists : options.hoistFields = true) {query : Query}
    (given : graph.OnImplementors interface query) :
    (graph.mergePolicy options).Shares (.interface interface) shared.keys query := by
  intro fragment member
  obtain ⟨typeName, selections, ordered, node, rfl, apart, found, implements⟩ := given _ member
  refine ⟨typeName, selections, ordered, rfl, ?_⟩
  have subtype : graph.isSubtype typeName interface = true := by
    simp [isSubtype, found, implements]
  simp [mergePolicy, treatment, treatmentUnderInterface, Ne.symm apart, hoists, declared, found,
    subtype]

/--
Merging under an interface, where all fragments are on nodes that implement it. The keys there are
those of the queries' own selections and of the fields in fragments that the interface declares. One
fragment is left on each type name whose fragments select other fields, and has the keys of these.
-/
theorem mergeAt_implementors (declared : graph.interface? interface = some shared)
    (hoists : options.hoistFields = true)
    (given : ∀ query ∈ queries, graph.OnImplementors interface query)
    (done : graph.mergeAt options (.interface interface) queries = .ok merged) :
    merged.selections.map Selection.resultKey =
      ((queries.flatMap fun query => query.selections ++ query.inFragments.filter fun selection =>
        shared.contains selection.name).map Selection.resultKey).eraseDups ∧
    merged.fragments.map Fragment.typeName? =
      ((queries.flatMap fun query => query.fragments.filterMap Fragment.typeName?).eraseDups.filter
        fun typeName => (queries.flatMap (Query.inFragmentsOn typeName)).any fun selection =>
          !shared.contains selection.name).map some ∧
    ∀ typeName inner, .mk (some typeName) inner ∈ merged.fragments →
      inner.fragments = [] ∧ inner.selections.map Selection.resultKey =
        (((queries.flatMap (Query.inFragmentsOn typeName)).filter fun selection =>
          !shared.contains selection.name).map Selection.resultKey).eraseDups := by
  have joins : (graph.mergePolicy options).combine = Slot.join := rfl
  have merges := MergePolicy.merges_of_merge joins done
  have shares := fun query member => shares_of_onImplementors declared hoists (given query member)
  simp only [← Entries.contains_keys]
  refine ⟨?_, merges.survivors_of_shares shares joins, fun typeName inner member => ?_⟩
  · rw [merges.keys_eraseDups, MergePolicy.selectionsAt_of_shares shares]
  · obtain ⟨_, same, _, doneInner, _⟩ := merges.exists_group member
    obtain rfl := Option.some.inj same
    have mergesInner := MergePolicy.merges_of_merge joins doneInner
    have plain := fun query => @MergePolicy.plain_of_shares _ _ _ _ _ _ shares typeName query
    refine ⟨mergesInner.fragments_of_plain plain, ?_⟩
    rw [mergesInner.keys_of_plain plain, ← MergePolicy.selections_groupedAt_of_shares shares]

def mediaLengths : List Query :=
  [.mk [.field ⟨"duration", some "length", none, []⟩]
    [.mk (some "Audio") (.ofSelections
      [.field (.named "duration"), .field (.named "format")])] false,
    .mk [] [.mk (some "Video") (.ofSelections [.field (.named "duration")]),
      .mk (some "Audio") (.ofSelections
        [.field ⟨"format", some "kind", none, []⟩, .field (.named "format")])] false]

def mergedMediaLengths : Query :=
  .mk [.field ⟨"duration", some "length", none, []⟩, .field (.named "duration")]
    [.mk (some "Audio") (.ofSelections
      [.field (.named "format"), .field ⟨"format", some "kind", none, []⟩])] false

theorem mergeAt_implementors_mediaLengths :
    MergeOptions.standard.hoistFields = true ∧
    (∀ query ∈ mediaLengths, media.OnImplementors "Media" query) ∧
    media.mergeAt .standard (.interface "Media") mediaLengths = .ok mergedMediaLengths ∧
    mergedMediaLengths.selections.map Selection.resultKey = ["length", "duration"] ∧
    mergedMediaLengths.fragments.map Fragment.typeName? = [some "Audio"] ∧
    ∀ inner, .mk (some "Audio") inner ∈ mergedMediaLengths.fragments →
      inner.fragments = [] ∧ inner.selections.map Selection.resultKey = ["format", "kind"] := by
  have given : ∀ query ∈ mediaLengths, media.OnImplementors "Media" query := by
    have each : ∀ fragment ∈ mediaLengths.flatMap Query.fragments,
        ∃ typeName selections ordered node,
          fragment = .mk (some typeName) (.mk selections [] ordered) ∧ typeName ≠ "Media" ∧
          media.node? typeName = some node ∧ "Media" ∈ node.implements := by
      simp [mediaLengths, Query.fragments, Query.ofSelections, media, node?, Entries.find?_cons]
    exact fun query member fragment inside => each _ (List.mem_flatMap.mpr ⟨_, member, inside⟩)
  have done : media.mergeAt .standard (.interface "Media") mediaLengths = .ok mergedMediaLengths :=
    rfl
  obtain ⟨keys, typeNames, inside⟩ := mergeAt_implementors rfl rfl given done
  exact ⟨rfl, given, done, keys, typeNames, inside "Audio"⟩

end Graph

end GraphQuery
