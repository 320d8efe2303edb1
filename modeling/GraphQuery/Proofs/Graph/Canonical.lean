import GraphQuery.Proofs.Graph.Meaning
import GraphQuery.Proofs.Query.Remerging

/-!
When what is merged against a graph is final. Merging once more changes nothing exactly if no
fragment that is left holds a field that is to be hoisted out of it.
-/

namespace GraphQuery.Graph

variable {graph : Graph} {options : MergeOptions} {place : Place} {queries : List Query}
  {query merged : Query}

theorem taken_eq_nil (plain : options.hoistFields = false) (place : Place) (typeName : String)
    (query : Query) : (graph.mergePolicy options).taken place typeName query = [] := by
  refine List.eq_nil_iff_forall_not_mem.mpr fun selection member => ?_
  obtain ⟨shared, treated, _⟩ := MergePolicy.mem_taken_iff.mp member
  exact treatment_ne_hoist plain place typeName shared treated

theorem hoisted_of_plain (plain : options.hoistFields = false) (place : Place) (query : Query) :
    (graph.mergePolicy options).Hoisted place query :=
  MergePolicy.hoisted_of_untaken (taken_eq_nil plain) place query

/-- What was merged at a place merges there again to an equal query if and only if nothing in it is
left to be hoisted. Without hoisting that is always so, and the query itself comes back. -/
theorem mergeAt_again_iff (comparable : ∀ query ∈ queries, query.isComparable = true)
    (done : graph.mergeAt options place queries = .ok merged) :
    ((∃ again, graph.mergeAt options place [merged] = .ok again ∧ (again == merged) = true) ↔
      (graph.mergePolicy options).Hoisted place merged) ∧
    (options.hoistFields = false → graph.mergeAt options place [merged] = .ok merged) := by
  have shape := MergePolicy.merged_of_merge rfl done
  have comparableMerged := MergePolicy.isComparable_of_merge rfl comparable done
  have comparableOne : ∀ query ∈ [merged], query.isComparable = true := by
    intro query member
    obtain rfl := List.mem_singleton.mp member
    exact comparableMerged
  refine ⟨⟨?_, ?_⟩, ?_⟩
  · rintro ⟨again, doneAgain, equal⟩
    have shapeAgain := MergePolicy.merged_of_merge rfl doneAgain
    have comparableAgain := MergePolicy.isComparable_of_merge rfl comparableOne doneAgain
    exact shape.hoisted_of_like rfl doneAgain
      (shapeAgain.like_of_beq shape comparableAgain comparableMerged equal)
  · exact fun hoisted =>
      ⟨merged, MergePolicy.merge_of_hoisted rfl shape hoisted, Query.beq_self merged⟩
  · exact fun plain => MergePolicy.merge_of_hoisted rfl shape (hoisted_of_plain plain place merged)

def durations : Query :=
  .mk [] [.mk (some "Audio") (.ofSelections [.field (.named "duration"), .field (.named "format")]),
    .mk (some "Video") (.ofSelections [.field (.named "duration"), .field (.named "codec")])] false

def mergedDurations : Query :=
  .mk [.field (.named "duration")]
    [.mk (some "Audio") (.ofSelections [.field (.named "format")]),
      .mk (some "Video") (.ofSelections [.field (.named "codec")])] false

theorem mergeAt_again_durations : (∀ query ∈ [durations], query.isComparable = true) ∧
    media.mergeAt .standard (.interface "Media") [durations] = .ok mergedDurations ∧
    ∃ again, media.mergeAt .standard (.interface "Media") [mergedDurations] = .ok again ∧
      (again == mergedDurations) = true := by
  have comparable : ∀ query ∈ [durations], query.isComparable = true := by decide
  have done : media.mergeAt .standard (.interface "Media") [durations] = .ok mergedDurations := rfl
  refine ⟨comparable, done, (mergeAt_again_iff comparable done).1.mpr ?_⟩
  have plain : ∀ (place : Place) (names : List String), (media.mergePolicy .standard).Hoisted place
      (.ofSelections (names.map fun name => .field (.named name))) := by
    intro place names
    refine .mk ?_ ?_ ?_ <;> simp [Query.ofSelections, Query.fragments, Query.selections]
  refine .mk ?_ ?_ ?_
  · intro typeName inner member
    simp only [mergedDurations, Query.fragments, List.mem_cons, Fragment.mk.injEq,
      Option.some.injEq, List.not_mem_nil, or_false] at member
    rcases member with ⟨rfl, rfl⟩ | ⟨rfl, rfl⟩ <;> rfl
  · intro typeName inner member
    simp only [mergedDurations, Query.fragments, List.mem_cons, Fragment.mk.injEq,
      Option.some.injEq, List.not_mem_nil, or_false] at member
    rcases member with ⟨rfl, rfl⟩ | ⟨rfl, rfl⟩
    · exact plain _ ["format"]
    · exact plain _ ["codec"]
  · simp [mergedDurations, Query.selections]

def nestedDuration : Query :=
  .mk [] [.mk (some "Audio")
    (.mk [] [.mk none (.ofSelections [.field (.named "duration")])] false)] false

/-- A field in a fragment within a fragment is hoisted only when merging again. -/
theorem mergeAt_again_differs : ∃ merged again, nestedDuration.isComparable = true ∧
    media.mergeAt .standard (.interface "Media") [nestedDuration] = .ok merged ∧
    media.mergeAt .standard (.interface "Media") [merged] = .ok again ∧
    (again == merged) = false := by
  refine ⟨.mk [] [.mk (some "Audio") (.ofSelections [.field (.named "duration")])] false,
    .ofSelections [.field (.named "duration")], by decide, rfl, rfl, by decide⟩

end GraphQuery.Graph
