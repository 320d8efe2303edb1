import GraphQuery.Proofs.Graph.Canonical
import GraphQuery.Proofs.Query.Hoisting
import GraphQuery.Proofs.Query.Offered

/-!
How far hoisting against a graph is free of collisions. Where queries merge without it, it fails
only by a selection that it moves; and it leaves a key its one meaning for an object unless what it
moves to that object means something else.
-/

namespace GraphQuery.Graph

def OfType (graph : Graph) (type typeName : String) : Prop :=
  graph.isSubtype type typeName = true

/-- Nothing but a node itself matches its name: no node implements it, and no union has its name. -/
def NodesStandAlone (graph : Graph) : Prop :=
  ∀ name, (graph.node? name).isSome = true → ∀ type, graph.OfType type name → type = name

variable {graph : Graph} {options : MergeOptions} {overlapping : Overlapping} {place : Place}
  {queries : List Query}

theorem treatment_unhoisted (overlapping : Overlapping) (place : Place) (typeName : String) :
    (graph.mergePolicy ⟨true, overlapping⟩).unhoisted.treatment place typeName =
      graph.treatment ⟨false, overlapping⟩ place typeName := by
  rw [MergePolicy.unhoisted, mergePolicy]
  dsimp only
  cases place with
  | root => by_cases same : rootName = typeName <;> simp [treatment, same]
  | object node => by_cases same : graph.isSubtype node typeName = true <;> simp [treatment, same]
  | union union => by_cases same : union = typeName <;> simp [treatment, same]
  | unknown => rfl
  | interface interface =>
      by_cases same : interface = typeName
      · simp [treatment, same]
      · have kept : graph.treatmentUnderInterface ⟨true, overlapping⟩ interface typeName ≠
            .expand := treatmentUnderInterface_ne_expand interface typeName
        cases treated : graph.treatmentUnderInterface ⟨true, overlapping⟩ interface typeName with
        | expand => exact (kept treated).elim
        | hoist shared => simp [treatment, same, treated]
        | keep => simp [treatment, same, treated]

theorem unhoisted_mergePolicy (graph : Graph) (overlapping : Overlapping) :
    (graph.mergePolicy ⟨true, overlapping⟩).unhoisted = graph.mergePolicy ⟨false, overlapping⟩ := by
  have treatments : (graph.mergePolicy ⟨true, overlapping⟩).unhoisted.treatment =
      graph.treatment ⟨false, overlapping⟩ :=
    funext fun place => funext fun typeName => treatment_unhoisted overlapping place typeName
  exact congrArg (fun treatment : Place → String → Treatment =>
    (⟨Slot.join, treatment, graph.linkTarget, fun _ typeName => graph.placeNamed typeName⟩ :
      MergePolicy Place MergeError)) treatments

theorem isAt_of_ofType (alone : graph.NodesStandAlone) {type typeName : String}
    (ofType : graph.OfType type typeName) : graph.IsAt type (graph.placeNamed typeName) := by
  rw [placeNamed]
  split
  · exact alone typeName ‹_› type ofType
  · split
    · exact ofType
    · split
      · exact ofType
      · trivial

theorem conforms_mergePolicy (alone : graph.NodesStandAlone) :
    (graph.mergePolicy options).Conforms graph.OfType graph.IsAt where
  expand type place typeName here treated := by
    have matched := matches_of_expand (fun _ _ subtype => subtype) here treated
    rw [Matches] at matched
    split at matched <;> exact matched
  inside _ _ _ _ ofType := isAt_of_ofType alone ofType

/--
Queries that merge without hoisting merge with it if and only if no selection that is hoisted, and
nothing below a link that is, clashes with another selection. Whatever they merge to, let a key have
one meaning in all that they select below a path for an object and all that is hoisted there out of
their fragments, whether or not these are on a type of the object. Then what they merge to selects
the key for the object, and only with this meaning.
-/
theorem mergeAt_hoisting (keyed : ∀ query ∈ queries, query.isKeyed = true) :
    (∀ whole, graph.mergeAt ⟨false, overlapping⟩ place queries = .ok whole →
      ((∃ merged, graph.mergeAt ⟨true, overlapping⟩ place queries = .ok merged) ↔
        ¬ (graph.mergePolicy ⟨true, overlapping⟩).HoistClashes place queries)) ∧
    ∀ merged, graph.NodesStandAlone →
      graph.mergeAt ⟨true, overlapping⟩ place queries = .ok merged →
      ∀ (before : List (String × Step)) (type : String) (selection : Selection),
      (∀ first ∈ (before ++ [(type, selection.step)]).head?, graph.IsAt first.1 place) →
      ((before ++ [(type, selection.step)]).IsChain fun first second =>
        ∀ place, graph.IsAt first.1 place →
          graph.IsAt second.1 (graph.linkTarget place first.2.name)) →
      (∃ query ∈ queries, query.Shows graph.OfType before type selection) →
      (∀ query ∈ queries, ∀ other,
        (graph.mergePolicy ⟨true, overlapping⟩).Offered graph.OfType place query before type other →
        other.resultKey = selection.resultKey → selection.agrees other = true) →
      (∃ found, merged.Shows graph.OfType before type found ∧
        found.resultKey = selection.resultKey) ∧
      ∀ found, merged.Shows graph.OfType before type found →
        found.resultKey = selection.resultKey → selection.agrees found = true := by
  constructor
  · intro whole done
    have doneWhole : (graph.mergePolicy ⟨true, overlapping⟩).unhoisted.merge place queries =
        .ok whole := by
      rw [unhoisted_mergePolicy]
      exact done
    exact MergePolicy.merge_ok_iff_of_unhoisted rfl keyed doneWhole
  · intro merged alone done before type selection starts linked made single
    exact MergePolicy.shows_of_single rfl (conforms_mergePolicy alone) keyed done starts linked made
      single

theorem nodesStandAlone_of (implements : ∀ entry ∈ graph.nodes, ∀ name ∈ entry.2.implements,
    graph.node? name = none) (unions : ∀ entry ∈ graph.unions, graph.node? entry.1 = none) :
    graph.NodesStandAlone := by
  intro name known type ofType
  simp only [OfType, isSubtype, Bool.or_eq_true, beq_iff_eq, Option.any_eq_true] at ofType
  rcases ofType with (same | ⟨node, found, listed⟩) | ⟨members, found, _⟩
  · exact same
  · rw [implements _ (Entries.mem_of_find? found) name (List.contains_iff_mem.mp listed)] at known
    cases known
  · rw [unions _ (Entries.mem_of_find? found)] at known
    cases known

theorem mergeAt_hoisting_durations : (∀ query ∈ [durations], query.isKeyed = true) ∧
    media.mergeAt ⟨false, .keep⟩ (.interface "Media") [durations] = .ok durations ∧
    ¬ (media.mergePolicy ⟨true, .keep⟩).HoistClashes (.interface "Media") [durations] ∧
    media.NodesStandAlone ∧
    media.mergeAt ⟨true, .keep⟩ (.interface "Media") [durations] = .ok mergedDurations ∧
    ∃ found, mergedDurations.Shows media.OfType [] "Video" found ∧
      found.resultKey = "duration" := by
  have keyed : ∀ query ∈ [durations], query.isKeyed = true := by decide
  have whole : media.mergeAt ⟨false, .keep⟩ (.interface "Media") [durations] = .ok durations := rfl
  have done : media.mergeAt ⟨true, .keep⟩ (.interface "Media") [durations] =
    .ok mergedDurations := rfl
  have alone : media.NodesStandAlone := nodesStandAlone_of (by decide) (by decide)
  have hoisting := @mergeAt_hoisting media .keep (.interface "Media") [durations] keyed
  refine ⟨keyed, whole, (hoisting.1 durations whole).mp ⟨_, done⟩, alone, done, ?_⟩
  have made : ∃ query ∈ [durations],
      query.Shows media.OfType [] "Video" (.field (.named "duration")) := by
    refine ⟨durations, List.mem_cons_self, durations, .here, ?_⟩
    refine .fragment (List.mem_cons_of_mem _ List.mem_cons_self) ?_ (.own List.mem_cons_self)
    intro typeName same
    obtain rfl := Option.some.inj same
    exact rfl
  refine (hoisting.2 mergedDurations alone done [] "Video" (.field (.named "duration")) ?_ ?_ made
    ?_).1
  · intro first found
    obtain rfl := Option.some.inj found
    exact rfl
  · exact .singleton _
  · rintro query member other ⟨here, level, there, below, offers⟩ key
    obtain rfl := List.mem_singleton.mp member
    cases below
    have plain : ∀ (place : Place) (selections : List Selection),
        (media.mergePolicy ⟨true, .keep⟩).Offers (media.OfType "Video") place
          (.ofSelections selections) there other → other ∈ selections := by
      intro place selections offers
      cases offers with
      | own member => exact member
      | unconditional member _ | matching member _ _ | hoisted member _ => cases member
    have inside : ∃ names : List String,
        other ∈ names.map fun name => Selection.field (.named name) := by
      cases offers with
      | own member | unconditional member _ =>
          simp [durations, Query.selections, Query.fragments] at member
      | matching member _ offers =>
          simp only [durations, Query.fragments, List.mem_cons, Fragment.mk.injEq,
            Option.some.injEq, List.not_mem_nil, or_false] at member
          rcases member with ⟨rfl, rfl⟩ | ⟨rfl, rfl⟩
          · exact ⟨["duration", "format"], plain _ _ offers⟩
          · exact ⟨["duration", "codec"], plain _ _ offers⟩
      | hoisted member taken =>
          obtain ⟨_, _, own, _⟩ := MergePolicy.mem_taken_iff.mp taken
          simp only [durations, Query.fragments, List.mem_cons, Fragment.mk.injEq,
            Option.some.injEq, List.not_mem_nil, or_false] at member
          rcases member with ⟨rfl, rfl⟩ | ⟨rfl, rfl⟩
          · exact ⟨["duration", "format"], own⟩
          · exact ⟨["duration", "codec"], own⟩
    obtain ⟨names, listed⟩ := inside
    obtain ⟨name, _, rfl⟩ := List.mem_map.mp listed
    obtain rfl : name = "duration" := key
    rfl

def lengths (ofVideo : Head) : Query :=
  .mk [] [.mk (some "Audio") (.ofSelections [.field ⟨"duration", some "length", none, []⟩]),
    .mk (some "Video") (.ofSelections [.field ofVideo])] false

def rounded : Head := ⟨"duration", some "length", some [("round", .integer 1)], []⟩

def codecLength : Head := ⟨"codec", some "length", none, []⟩

theorem applies_lengths_iff {ofVideo : Head} {selection : Selection} :
    (lengths ofVideo).Applies (media.OfType "Video") selection ↔ selection = .field ofVideo := by
  have audio : ¬ media.OfType "Video" "Audio" := Bool.false_ne_true
  have video : media.OfType "Video" "Video" := rfl
  simp [lengths, Query.applies_mk_iff, Fragment.query, Fragment.typeName?, Query.ofSelections,
    audio, video]

def shelved : Graph where
  root := []
  nodes := [("Audio", ⟨[], ["Played", "Track"]⟩), ("Track", ⟨[], ["Media"]⟩)]
  interfaces := [("Played", []), ("Media", [("title", ⟨.string, []⟩)])]
  unions := []

def shelvedTitle : Query :=
  .mk [.field ⟨"name", some "title", none, []⟩] [.mk (some "Track") (.mk [] [.mk (some "Media")
    (.ofSelections [.field (.named "title")])] false)] false

def mergedShelvedTitle : Query :=
  .mk [.field ⟨"name", some "title", none, []⟩] [.mk (some "Track")
    (.ofSelections [.field (.named "title")])] false

/-- What some types agree on is hoisted over others. Two selections of different types meet there
under one key, or the hoisted one meets what an object of another type has under the key. The latter
happens also where a fragment is expanded inside one on a node that another node implements. -/
theorem mergeAt_hoisting_collides :
    (media.mergeAt ⟨false, .keep⟩ (.interface "Media") [lengths rounded] = .ok (lengths rounded) ∧
      media.mergeAt ⟨true, .keep⟩ (.interface "Media") [lengths rounded] =
        .error (.distinctSelections "length")) ∧
    (∃ merged, media.mergeAt ⟨true, .keep⟩ (.interface "Media") [lengths codecLength] = .ok merged ∧
      media.IsAt "Video" (.interface "Media") ∧
      (lengths codecLength).Shows media.OfType [] "Video" (.field codecLength) ∧
      (∀ other, (lengths codecLength).Shows media.OfType [] "Video" other →
        (Selection.field codecLength).agrees other = true) ∧
      ∃ found, merged.Shows media.OfType [] "Video" found ∧ found.resultKey = "length" ∧
        (Selection.field codecLength).agrees found = false) ∧
    shelved.mergeAt ⟨true, .keep⟩ (.interface "Played") [shelvedTitle] = .ok mergedShelvedTitle ∧
      shelved.IsAt "Audio" (.interface "Played") ∧
      (∃ selection, shelvedTitle.Shows shelved.OfType [] "Audio" selection ∧
        (∀ other, shelvedTitle.Shows shelved.OfType [] "Audio" other →
          selection.agrees other = true) ∧
        ∃ found, mergedShelvedTitle.Shows shelved.OfType [] "Audio" found ∧
          found.resultKey = selection.resultKey ∧ selection.agrees found = false) := by
  refine ⟨⟨rfl, rfl⟩, ⟨_, rfl, rfl, ?_, ?_, ?_⟩, rfl, rfl, ?_⟩
  · rw [Query.shows_nil_iff, applies_lengths_iff]
  · intro other shows
    rw [Query.shows_nil_iff, applies_lengths_iff] at shows
    subst shows
    rfl
  · refine ⟨.field ⟨"duration", some "length", none, []⟩, ?_, rfl, rfl⟩
    exact Query.shows_nil_iff.mpr (.own List.mem_cons_self)
  · refine ⟨.field ⟨"name", some "title", none, []⟩, ?_, ?_, .field (.named "title"), ?_, rfl, rfl⟩
    · exact Query.shows_nil_iff.mpr (.own List.mem_cons_self)
    · intro other shows
      rw [Query.shows_nil_iff] at shows
      have media : ¬ shelved.OfType "Audio" "Media" := Bool.false_ne_true
      simp [shelvedTitle, Query.applies_mk_iff, Fragment.query, Fragment.typeName?, media] at shows
      subst shows
      rfl
    · refine Query.shows_nil_iff.mpr (.fragment List.mem_cons_self ?_ (.own List.mem_cons_self))
      intro typeName same
      obtain rfl := Option.some.inj same
      exact rfl

end GraphQuery.Graph
